import Mathlib.Data.Fintype.Card
import Xv6Arm.Lib.Fallible
import Xv6Arm.Lib.Runs
import Xv6Arm.Sys.Calls

/-!
# Files, descriptors and pipes

The calls of `sysfile.c` that hand references to files around, with `pipealloc`
and `pipeclose` of `pipe.c`, for one process.  `file.c` keeps the bodies of
`filealloc`, `filedup` and `fileclose` in comments.

A pipe lives in a page.  The free pages are the list that `kalloc.c` keeps: `kalloc`
takes the first one and `kfree` puts one in front.  The inode part of `sys_open` is
left to a parameter, and `iput` does not touch these tables.

Between its steps a call has references in hand that are in no descriptor, or has
put a file into a descriptor before it counts the reference.  The invariant keeps
the difference.
-/

namespace Xv6Arm.Files

open Fallible Runs
open Sys (NFILE NOFILE FileType O_WRONLY O_RDWR)

/-! ## Tables -/

/-- `struct file`. -/
structure File (P : Type) where
  type : FileType
  ref : Nat
  readable : Bool
  writable : Bool
  pipe : Option P
  ip : Nat
  off : Nat

/-- The flags of `struct pipe`. -/
structure Pipe where
  readopen : Bool
  writeopen : Bool

/-- The file table, the descriptors of the process, the pipes by their pages, and the free
pages. -/
structure Tables (P : Type) where
  file : Fin NFILE → File P
  ofile : Fin NOFILE → Option (Fin NFILE)
  pipe : P → Pipe
  free : List P

/-- Kernel code on the tables.  It fails with the message of a panic, or by a null pointer. -/
abbrev Kernel (P : Type) := StateT (Tables P) (Except String)

variable {P : Type} [DecidableEq P]

/-- The tables with another file. -/
def Tables.setFile (s : Tables P) (f : Fin NFILE) (file : File P) : Tables P :=
  { s with file := Function.update s.file f file }

/-- The tables with another descriptor. -/
def Tables.setSlot (s : Tables P) (fd : Fin NOFILE) (f : Option (Fin NFILE)) : Tables P :=
  { s with ofile := Function.update s.ofile fd f }

/-- The tables with another pipe. -/
def Tables.setPipe (s : Tables P) (p : P) (pipe : Pipe) : Tables P :=
  { s with pipe := Function.update s.pipe p pipe }

/-! ## Files and pages -/

/-- `kalloc`. -/
def kalloc : Kernel P (Option P) := do
  let s ← get
  match s.free with
  | [] => return none
  | p :: free => do
      set { s with free }
      return some p

/-- `kfree`. -/
def kfree (p : P) : Kernel P Unit := modify fun s => { s with free := p :: s.free }

/-- `filealloc`. -/
def filealloc : Kernel P (Option (Fin NFILE)) := do
  let s ← get
  match (List.finRange NFILE).find? fun f => (s.file f).ref = 0 with
  | none => return none
  | some f => do
      set (s.setFile f { s.file f with ref := 1 })
      return some f

/-- `filedup`. -/
def filedup (f : Fin NFILE) : Kernel P Unit := do
  let s ← get
  if (s.file f).ref < 1 then throw "filedup"
  else set (s.setFile f { s.file f with ref := (s.file f).ref + 1 })

/-- An end of a pipe is closed. -/
def Pipe.close (pipe : Pipe) (writable : Bool) : Pipe :=
  if writable then { pipe with writeopen := false } else { pipe with readopen := false }

/-- `pipeclose`. -/
def pipeclose (p : P) (writable : Bool) : Kernel P Unit := do
  let s ← get
  let pipe := (s.pipe p).close writable
  set (s.setPipe p pipe)
  if pipe.readopen = false ∧ pipe.writeopen = false then kfree p else return ()

/-- The end of `fileclose`, for a file that is no longer in use. -/
def release (ff : File P) : Kernel P Unit :=
  match ff.type, ff.pipe with
  | .pipe, some p => pipeclose p ff.writable
  | .pipe, none => throw "null pointer"
  | .inode, _ => return ()
  | .none, _ => return ()

/-- `fileclose`. -/
def fileclose (f : Fin NFILE) : Kernel P Unit := do
  let s ← get
  let ff := s.file f
  if ff.ref < 1 then throw "fileclose"
  else if 1 < ff.ref then set (s.setFile f { ff with ref := ff.ref - 1 })
  else do
    set (s.setFile f { ff with ref := 0, type := .none })
    release ff

/-- `if(p) kfree(p)`. -/
def kfreeIf : Option P → Kernel P Unit
  | none => return ()
  | some p => kfree p

/-- `if(f) fileclose(f)`. -/
def filecloseIf : Option (Fin NFILE) → Kernel P Unit
  | none => return ()
  | some f => fileclose f

/-- The exit `bad` of `pipealloc`. -/
def pipeallocBad (f₀ f₁ : Option (Fin NFILE)) (p : Option P) :
    Kernel P (Option (Fin NFILE × Fin NFILE)) := do
  kfreeIf p
  filecloseIf f₀
  filecloseIf f₁
  return none

/-- The assignments of `pipealloc` to an end of the pipe. -/
def Tables.setEnd (s : Tables P) (f : Fin NFILE) (p : P) (writable : Bool) : Tables P :=
  s.setFile f { s.file f with type := .pipe, readable := !writable, writable, pipe := some p }

/-- `pipealloc`. -/
def pipealloc : Kernel P (Option (Fin NFILE × Fin NFILE)) := do
  match ← filealloc with
  | none => pipeallocBad none none none
  | some f₀ => do
      match ← filealloc with
      | none => pipeallocBad (some f₀) none none
      | some f₁ => do
          match ← kalloc with
          | none => pipeallocBad (some f₀) (some f₁) none
          | some p => do
              modify fun s => ((s.setPipe p ⟨true, true⟩).setEnd f₀ p false).setEnd f₁ p true
              return some (f₀, f₁)

/-! ## The calls -/

/-- `argfd`: an argument that cannot be fetched is `none`. -/
def argfd (s : Tables P) : Option Int → Option (Fin NOFILE × Fin NFILE)
  | none => none
  | some n =>
      if h : 0 ≤ n ∧ n < NOFILE then
        let fd : Fin NOFILE := ⟨n.toNat, by omega⟩
        (s.ofile fd).map fun f => (fd, f)
      else none

/-- `fdalloc`. -/
def fdalloc (f : Fin NFILE) : Kernel P (Option (Fin NOFILE)) := do
  let s ← get
  match (List.finRange NOFILE).find? fun fd => s.ofile fd = none with
  | none => return none
  | some fd => do
      set (s.setSlot fd (some f))
      return some fd

/-- `sys_dup`. -/
def sysDup (arg : Option Int) : Kernel P Int := do
  let s ← get
  match argfd s arg with
  | none => return -1
  | some (_, f) => do
      match ← fdalloc f with
      | none => return -1
      | some fd => do
          filedup f
          return (fd : Nat)

/-- `sys_close`. -/
def sysClose (arg : Option Int) : Kernel P Int := do
  let s ← get
  match argfd s arg with
  | none => return -1
  | some (fd, f) => do
      set (s.setSlot fd none)
      fileclose f
      return 0

/-- `if(fd >= 0) proc->ofile[fd] = 0`. -/
def clearIf : Option (Fin NOFILE) → Kernel P Unit
  | none => return ()
  | some fd => modify fun s => s.setSlot fd none

/-- The clean-up of `sys_pipe`. -/
def sysPipeBad (fd₀ : Option (Fin NOFILE)) (rf wf : Fin NFILE) : Kernel P Int := do
  clearIf fd₀
  fileclose rf
  fileclose wf
  return -1

/-- `sys_pipe`.  The argument is whether `argptr` finds the array. -/
def sysPipe (arg : Bool) : Kernel P Int := do
  if arg = false then return -1
  else do
    match ← pipealloc with
    | none => return -1
    | some (rf, wf) => do
        match ← fdalloc rf with
        | none => sysPipeBad none rf wf
        | some fd₀ => do
            match ← fdalloc wf with
            | none => sysPipeBad (some fd₀) rf wf
            | some _ => return 0

/-- The assignments of `sys_open` to a new file. -/
def Tables.setInode (s : Tables P) (f : Fin NFILE) (ip omode : Nat) : Tables P :=
  s.setFile f { s.file f with
    type := .inode, ip, off := 0, readable := omode &&& O_WRONLY = 0,
    writable := omode &&& O_WRONLY ≠ 0 ∨ omode &&& O_RDWR ≠ 0 }

/-- `sys_open`.  The argument `found` is the inode that `create` or `namei` and the test of its
type give, if any. -/
def sysOpen (found : Option Nat) (omode : Nat) : Kernel P Int := do
  match found with
  | none => return -1
  | some ip => do
      match ← filealloc with
      | none => return -1
      | some f => do
          match ← fdalloc f with
          | none => do
              fileclose f
              return -1
          | some fd => do
              modify fun s => s.setInode f ip omode
              return (fd : Nat)

/-- A call with its arguments. -/
inductive Call
  | dup (arg : Option Int)
  | close (arg : Option Int)
  | pipe (arg : Bool)
  | openFile (found : Option Nat) (omode : Nat)

/-- The code of a call. -/
def Call.code : Call → Kernel P Int
  | .dup arg => sysDup arg
  | .close arg => sysClose arg
  | .pipe arg => sysPipe arg
  | .openFile found omode => sysOpen found omode

/-- One call. -/
def step (c : Call) (s : Tables P) : Option (Tables P) :=
  match c.code.run s with
  | .ok (_, t) => some t
  | .error _ => none

/-! ## The invariant -/

/-- The number of descriptors that hold a file. -/
def Tables.slots (s : Tables P) (f : Fin NFILE) : Nat :=
  (Finset.univ.filter fun fd => s.ofile fd = some f).card

/-- File `f` is the end of the pipe in page `p`. -/
def End (s : Tables P) (p : P) (writable : Bool) (f : Fin NFILE) : Prop :=
  (s.file f).type = .pipe ∧ (s.file f).pipe = some p ∧ (s.file f).writable = writable

/-- An end of a pipe is open. -/
def Pipe.isOpen (pipe : Pipe) (writable : Bool) : Bool :=
  if writable then pipe.writeopen else pipe.readopen

/-- The references of each file are those of the descriptors and those that the call has in hand.
An end of a pipe is open if it has a file. -/
structure Inv (s : Tables P) (hand : Fin NFILE → Int) : Prop where
  counted : ∀ f, ((s.file f).ref : Int) = s.slots f + hand f
  closed : ∀ f, (s.file f).ref = 0 → (s.file f).type = .none
  pointer : ∀ f, (s.file f).type = .pipe → ∃ p, End s p (s.file f).writable f
  page : ∀ p w f, End s p w f → p ∉ s.free
  unique : ∀ p w f g, End s p w f → End s p w g → f = g
  flags : ∀ p w f, End s p w f → ∀ w', (s.pipe p).isOpen w' = true ↔ ∃ g, End s p w' g
  nodup : s.free.Nodup

section Inv

variable {s t : Tables P} {hand : Fin NFILE → Int} {f : Fin NFILE} {fd : Fin NOFILE} {p : P}
  {w : Bool}

omit [DecidableEq P]

/-- The same references in hand and the same descriptors give the same counts. -/
theorem Inv.ref_eq (h : Inv s hand) (ht : Inv t hand) (hofile : t.ofile = s.ofile)
    (f : Fin NFILE) : (t.file f).ref = (s.file f).ref := by
  have hs := h.counted f
  have hslots : t.slots f = s.slots f := by
    unfold Tables.slots
    rw [hofile]
  have ht := ht.counted f
  rw [hslots] at ht
  omega

theorem slots_setSlot_some (hfree : s.ofile fd = none) (f g : Fin NFILE) :
    (s.setSlot fd (some f)).slots g = s.slots g + if g = f then 1 else 0 := by
  unfold Tables.slots Tables.setSlot
  split
  · next hg =>
    subst hg
    have hins : (Finset.univ.filter fun d => Function.update s.ofile fd (some g) d = some g) =
        insert fd (Finset.univ.filter fun d => s.ofile d = some g) := by
      ext d
      rcases eq_or_ne d fd with rfl | hd
      · simp
      · simp [hd]
    rw [hins, Finset.card_insert_of_notMem (by simp [hfree])]
  · next hg =>
    rw [Nat.add_zero]
    congr 1
    ext d
    rcases eq_or_ne d fd with rfl | hd
    · simp [hfree, Ne.symm hg]
    · simp [Function.update_of_ne hd]

theorem slots_setSlot_none (hheld : s.ofile fd = some f) (g : Fin NFILE) :
    s.slots g = (s.setSlot fd none).slots g + if g = f then 1 else 0 := by
  have hback : (s.setSlot fd none).setSlot fd (some f) = s := by
    unfold Tables.setSlot
    simp only [Function.update_idem]
    rw [← hheld, Function.update_eq_self]
  have hcount : ((s.setSlot fd none).setSlot fd (some f)).slots g = _ :=
    slots_setSlot_some (Function.update_self ..) f g
  rwa [hback] at hcount

/-- References in hand, with `k` more of one file. -/
def bump (hand : Fin NFILE → Int) (f : Fin NFILE) (k : Int) : Fin NFILE → Int :=
  fun g => hand g + if g = f then k else 0

theorem bump_bump (hand : Fin NFILE → Int) (f : Fin NFILE) (j k : Int) :
    bump (bump hand f j) f k = bump hand f (j + k) := by
  funext g
  unfold bump
  split <;> omega

theorem bump_zero (hand : Fin NFILE → Int) (f : Fin NFILE) : bump hand f 0 = hand := by
  funext g
  unfold bump
  split <;> omega

theorem bump_comm (hand : Fin NFILE → Int) (f g : Fin NFILE) (j k : Int) :
    bump (bump hand f j) g k = bump (bump hand g k) f j := by
  funext x
  unfold bump
  omega

/-- A file is put into a free descriptor. -/
theorem Inv.setSlot_some (h : Inv s hand) (hfree : s.ofile fd = none) (f : Fin NFILE) :
    Inv (s.setSlot fd (some f)) (bump hand f (-1)) where
  counted g := by
    have hg : (((s.setSlot fd (some f)).file g).ref : Int) = s.slots g + hand g := h.counted g
    rw [hg, slots_setSlot_some hfree]
    unfold bump
    split
    · push_cast
      omega
    · omega
  closed := h.closed
  pointer := h.pointer
  page := h.page
  unique := h.unique
  flags := h.flags
  nodup := h.nodup

/-- A descriptor is cleared. -/
theorem Inv.setSlot_none (h : Inv s hand) (hheld : s.ofile fd = some f) :
    Inv (s.setSlot fd none) (bump hand f 1) where
  counted g := by
    have hg : (((s.setSlot fd none).file g).ref : Int) = s.slots g + hand g := h.counted g
    rw [hg, slots_setSlot_none hheld]
    unfold bump
    split
    · push_cast
      omega
    · omega
  closed := h.closed
  pointer := h.pointer
  page := h.page
  unique := h.unique
  flags := h.flags
  nodup := h.nodup

/-- The ends of the pipes after a file changed. -/
theorem end_setFile {x : File P} {g : Fin NFILE} : End (s.setFile f x) p w g ↔
    if g = f then x.type = .pipe ∧ x.pipe = some p ∧ x.writable = w else End s p w g := by
  unfold End Tables.setFile
  split
  · next hg =>
    subst hg
    simp only [Function.update_self]
  · next hg => simp only [Function.update_of_ne hg]

/-- The counts after a file changed. -/
theorem Inv.counted_setFile (h : Inv s hand) {x : File P} (g : Fin NFILE) :
    (((s.setFile f x).file g).ref : Int) =
      s.slots g + bump hand f (x.ref - (s.file f).ref) g := by
  have hcount := h.counted g
  unfold bump Tables.setFile
  rcases eq_or_ne g f with rfl | hne
  · simp only [Function.update_self, if_pos]
    omega
  · simp only [Function.update_of_ne hne, if_neg hne]
    omega

/-- A file changes that is no end of a pipe after it, or is the same end. -/
theorem Inv.setFile (h : Inv s hand) {x : File P} (href : 0 < x.ref)
    (hsame : ∀ p w, (x.type = .pipe ∧ x.pipe = some p ∧ x.writable = w) ↔ End s p w f)
    (hpointer : x.type = .pipe → ∃ p, x.pipe = some p) :
    Inv (s.setFile f x) (bump hand f (x.ref - (s.file f).ref)) := by
  have hend : ∀ p w g, End (s.setFile f x) p w g ↔ End s p w g := by
    intro p w g
    rw [end_setFile]
    split
    · next hg =>
      rw [hg]
      exact hsame p w
    · rfl
  refine ⟨h.counted_setFile, fun g hg => ?_, fun g hg => ?_,
    fun p w g hg => h.page p w g ((hend p w g).mp hg),
    fun p w g k hg hk => h.unique p w g k ((hend p w g).mp hg) ((hend p w k).mp hk),
    fun p w g hg w' => ?_, h.nodup⟩
  · unfold Tables.setFile at hg ⊢
    rcases eq_or_ne g f with rfl | hne
    · simp only [Function.update_self] at hg
      omega
    · simp only [Function.update_of_ne hne] at hg ⊢
      exact h.closed g hg
  · unfold Tables.setFile at hg
    rcases eq_or_ne g f with rfl | hne
    · simp only [Function.update_self] at hg
      obtain ⟨p, hp⟩ := hpointer hg
      refine ⟨p, end_setFile.mpr ?_⟩
      rw [if_pos rfl]
      exact ⟨hg, hp, by simp only [Tables.setFile, Function.update_self]⟩
    · simp only [Function.update_of_ne hne] at hg
      obtain ⟨p, hp⟩ := h.pointer g hg
      refine ⟨p, end_setFile.mpr ?_⟩
      rw [if_neg hne]
      simpa only [Tables.setFile, Function.update_of_ne hne] using hp
  · rw [show (s.setFile f x).pipe = s.pipe from rfl, h.flags p w g ((hend p w g).mp hg) w']
    exact exists_congr fun k => (hend p w' k).symm

/-- Only the references of a file change. -/
theorem Inv.setRef (h : Inv s hand) {n : Nat} (hn : 0 < n) (f : Fin NFILE) :
    Inv (s.setFile f { s.file f with ref := n }) (bump hand f (n - (s.file f).ref)) :=
  h.setFile (x := { s.file f with ref := n }) hn (fun _ _ => Iff.rfl) fun htype => by
    obtain ⟨p, hp⟩ := h.pointer f htype
    exact ⟨p, hp.2.1⟩

/-- A file that was just taken becomes an open inode. -/
theorem Inv.setInode (h : Inv s hand) (href : 0 < (s.file f).ref)
    (htype : (s.file f).type = .none) (ip omode : Nat) : Inv (s.setInode f ip omode) hand := by
  have hopen := h.setFile (f := f) (x := { s.file f with
      type := .inode, ip, off := 0, readable := omode &&& O_WRONLY = 0,
      writable := omode &&& O_WRONLY ≠ 0 ∨ omode &&& O_RDWR ≠ 0 }) href
    (fun p w => ⟨(fun hpipe => nomatch hpipe.1), fun hend =>
      FileType.noConfusion (hend.1.symm.trans htype)⟩) (fun hpipe => nomatch hpipe)
  rwa [Int.sub_self, bump_zero] at hopen

/-- The last reference to a file goes, and with it an end of a pipe. -/
theorem Inv.remove (h : Inv s hand) (href : (s.file f).ref = 1) {pipe : P → Pipe} {free : List P}
    (hflags : ∀ p w g, g ≠ f → End s p w g →
      ∀ w', (pipe p).isOpen w' = true ↔ ∃ k, k ≠ f ∧ End s p w' k)
    (hfree : ∀ p w g, g ≠ f → End s p w g → p ∉ free) (hnodup : free.Nodup) :
    Inv { s.setFile f { s.file f with ref := 0, type := .none } with pipe, free }
      (bump hand f (-1)) := by
  have hend : ∀ p w g, End { s.setFile f { s.file f with ref := 0, type := .none } with pipe, free }
      p w g ↔ g ≠ f ∧ End s p w g := by
    intro p w g
    refine (end_setFile (x := { s.file f with ref := 0, type := .none })).trans ?_
    split
    · next hg => exact ⟨(fun hpipe => nomatch hpipe.1), fun hpipe => absurd hg hpipe.1⟩
    · next hg => exact ⟨fun hpipe => ⟨hg, hpipe⟩, And.right⟩
  refine ⟨fun g => ?_, fun g hg => ?_, fun g hg => ?_,
    fun p w g hg => ?_, fun p w g k hg hk => ?_, fun p w g hg w' => ?_, hnodup⟩
  · have hcount := h.counted_setFile (f := f) (x := { s.file f with ref := 0, type := .none }) g
    rw [href] at hcount
    exact hcount
  · unfold Tables.setFile at hg ⊢
    rcases eq_or_ne g f with rfl | hne
    · simp only [Function.update_self]
    · simp only [Function.update_of_ne hne] at hg ⊢
      exact h.closed g hg
  · unfold Tables.setFile at hg
    rcases eq_or_ne g f with rfl | hne
    · simp only [Function.update_self] at hg
      cases hg
    · simp only [Function.update_of_ne hne] at hg
      obtain ⟨p, hp⟩ := h.pointer g hg
      refine ⟨p, (hend p _ g).mpr ⟨hne, ?_⟩⟩
      simpa only [Tables.setFile, Function.update_of_ne hne] using hp
  · obtain ⟨hne, hg⟩ := (hend p w g).mp hg
    exact hfree p w g hne hg
  · exact h.unique p w g k ((hend p w g).mp hg).2 ((hend p w k).mp hk).2
  · obtain ⟨hne, hg⟩ := (hend p w g).mp hg
    rw [hflags p w g hne hg w']
    exact exists_congr fun k => (hend p w' k).symm

end Inv

/-! ## Closing a file -/

/-- The free pages after a file is closed.  A pipe goes with the last reference to its second
end. -/
def Tables.freeAfter (s : Tables P) (f : Fin NFILE) : List P :=
  match (s.file f).type, (s.file f).pipe with
  | .pipe, some p =>
      if (s.file f).ref = 1 ∧ (s.pipe p).isOpen (!(s.file f).writable) = false then p :: s.free
      else s.free
  | _, _ => s.free

theorem isOpen_close (pipe : Pipe) (w w' : Bool) :
    (pipe.close w).isOpen w' = (pipe.isOpen w' && w' != w) := by
  cases w <;> cases w' <;> simp [Pipe.close, Pipe.isOpen]

theorem close_closed (pipe : Pipe) (w : Bool) :
    ((pipe.close w).readopen = false ∧ (pipe.close w).writeopen = false) ↔
      pipe.isOpen (!w) = false := by
  cases w <;> simp [Pipe.close, Pipe.isOpen]

section Close

variable {s : Tables P} {hand : Fin NFILE → Int} {f : Fin NFILE}

/-- The pipe of a file that is closed. -/
theorem Inv.removeEnd (h : Inv s hand) (href : (s.file f).ref = 1) {p : P} {w : Bool}
    (hend : End s p w f) {free : List P}
    (hfree : free = if (s.pipe p).isOpen (!w) = false then p :: s.free else s.free) :
    Inv { s.setFile f { s.file f with ref := 0, type := .none } with
      pipe := Function.update s.pipe p ((s.pipe p).close w), free } (bump hand f (-1)) := by
  -- The other end is open if it has a file.
  have hother : ∀ w' g, g ≠ f → End s p w' g → w' = !w ∧ (s.pipe p).isOpen (!w) = true := by
    intro w' g hne hg
    have hw : w' = !w := by
      by_contra hw
      have hw : w' = w := by cases w <;> cases w' <;> simp_all
      exact hne (h.unique p w g f (hw ▸ hg) hend)
    exact ⟨hw, (h.flags p w f hend _).mpr ⟨g, hw ▸ hg⟩⟩
  refine h.remove href (fun q w₁ g hne hg w' => ?_) (fun q w₁ g hne hg => ?_) ?_
  · rcases eq_or_ne q p with rfl | hq
    · rw [Function.update_self, isOpen_close, Bool.and_eq_true, h.flags q w f hend w']
      constructor
      · rintro ⟨⟨k, hk⟩, hw'⟩
        refine ⟨k, ?_, hk⟩
        rintro rfl
        rw [← hk.2.2, ← hend.2.2] at hw'
        simp at hw'
      · rintro ⟨k, hkf, hk⟩
        refine ⟨⟨k, hk⟩, ?_⟩
        rw [(hother w' k hkf hk).1]
        cases w <;> rfl
    · rw [Function.update_of_ne hq, h.flags q w₁ g hg w']
      refine exists_congr fun k => ⟨fun hk => ⟨?_, hk⟩, And.right⟩
      rintro rfl
      exact hq (Option.some.inj (hk.2.1.symm.trans hend.2.1))
  · have hpage := h.page q w₁ g hg
    rw [hfree]
    split
    · next hclosed =>
      refine fun hmem => (List.mem_cons.mp hmem).elim (fun hqp => ?_) hpage
      rw [(hother w₁ g hne (hqp ▸ hg)).2] at hclosed
      cases hclosed
    · exact hpage
  · rw [hfree]
    split
    · exact List.nodup_cons.mpr ⟨h.page p w f hend, h.nodup⟩
    · exact h.nodup

omit [DecidableEq P] in
theorem freeAfter_of_end {p : P} {w : Bool} (hend : End s p w f) : s.freeAfter f =
    if (s.file f).ref = 1 ∧ (s.pipe p).isOpen (!w) = false then p :: s.free else s.free := by
  unfold Tables.freeAfter
  rw [hend.1, hend.2.1, hend.2.2]

omit [DecidableEq P] in
theorem freeAfter_of_ne (htype : (s.file f).type ≠ .pipe) : s.freeAfter f = s.free := by
  unfold Tables.freeAfter
  split
  · next hpipe _ => exact absurd hpipe htype
  · rfl

omit [DecidableEq P] in
/-- A file that is no end of a pipe. -/
theorem Inv.removeOther (h : Inv s hand) (href : (s.file f).ref = 1)
    (htype : (s.file f).type ≠ .pipe) :
    Inv (s.setFile f { s.file f with ref := 0, type := .none }) (bump hand f (-1)) := by
  refine h.remove href (fun p w g _ hg w' => ?_) (fun p w g _ hg => h.page p w g hg) h.nodup
  rw [h.flags p w g hg w']
  refine exists_congr fun k => ⟨fun hk => ⟨?_, hk⟩, And.right⟩
  rintro rfl
  exact htype hk.1

theorem pipeclose_returns (p : P) (w : Bool) : Returns (pipeclose p w) s fun _ t => t = { s with
    pipe := Function.update s.pipe p ((s.pipe p).close w)
    free := if (s.pipe p).isOpen (!w) = false then p :: s.free else s.free } := by
  refine returns_get ?_
  refine (returns_set (Q := fun _ t => t = s.setPipe p ((s.pipe p).close w)) rfl).bind ?_
  rintro - _ rfl
  by_cases hclosed : (s.pipe p).isOpen (!w) = false
  · rw [if_pos ((close_closed _ w).mpr hclosed), if_pos hclosed]
    exact returns_modify rfl
  · rw [if_neg (fun hboth => hclosed ((close_closed _ w).mp hboth)), if_neg hclosed]
    exact returns_pure rfl

omit [DecidableEq P] in
theorem file_setFile_ne {x : File P} {g : Fin NFILE} (hg : g ≠ f) :
    (s.setFile f x).file g = s.file g :=
  Function.update_of_ne hg ..

omit [DecidableEq P] in
theorem file_setFile_self {x : File P} : (s.setFile f x).file f = x := Function.update_self ..

/-- What `fileclose` does: one reference is given back, and the page of a pipe with the last
reference to its second end. -/
structure Closed (s : Tables P) (hand : Fin NFILE → Int) (f : Fin NFILE) (t : Tables P) : Prop where
  inv : Inv t (bump hand f (-1))
  ofile : t.ofile = s.ofile
  free : t.free = s.freeAfter f
  others : ∀ g, g ≠ f → t.file g = s.file g
  last : (s.file f).ref = 1 → (t.file f).type = .none

theorem fileclose_returns (h : Inv s hand) (href : 0 < (s.file f).ref) :
    Returns (fileclose f) s fun _ t => Closed s hand f t := by
  refine returns_get ?_
  rw [if_neg (by omega)]
  by_cases hmany : 1 < (s.file f).ref
  · rw [if_pos hmany]
    refine returns_set ⟨?_, rfl, ?_, fun g hg => file_setFile_ne hg, fun hone => by omega⟩
    · have hless := h.setRef (n := (s.file f).ref - 1) (by omega) f
      rwa [show (((s.file f).ref - 1 : Nat) : Int) - (s.file f).ref = -1 by omega] at hless
    · by_cases htype : (s.file f).type = .pipe
      · obtain ⟨p, hend⟩ := h.pointer f htype
        rw [freeAfter_of_end hend, if_neg (by omega)]
        rfl
      · exact (freeAfter_of_ne htype).symm
  rw [if_neg hmany]
  have hone : (s.file f).ref = 1 := by omega
  have hlast : ((s.setFile f { s.file f with ref := 0, type := .none }).file f).type = .none := by
    rw [file_setFile_self]
  refine (returns_set (Q := fun _ t =>
    t = s.setFile f { s.file f with ref := 0, type := .none }) rfl).bind ?_
  rintro - _ rfl
  by_cases htype : (s.file f).type = .pipe
  · obtain ⟨p, hend⟩ := h.pointer f htype
    unfold release
    rw [htype, hend.2.1]
    refine (pipeclose_returns p _).mono ?_
    rintro - _ rfl
    refine ⟨h.removeEnd hone hend rfl, rfl, ?_, fun g hg => file_setFile_ne hg, fun _ => hlast⟩
    rw [freeAfter_of_end hend]
    by_cases hclosed : (s.pipe p).isOpen (!(s.file f).writable) = false
    · exact (if_pos hclosed).trans (if_pos ⟨hone, hclosed⟩).symm
    · exact (if_neg hclosed).trans (if_neg fun hboth => hclosed hboth.2).symm
  · have hnothing : release (s.file f) = pure () := by
      unfold release
      split <;> first | rfl | contradiction
    show Returns (release (s.file f)) _ _
    rw [hnothing]
    exact returns_pure ⟨h.removeOther hone htype, rfl, (freeAfter_of_ne htype).symm,
      fun g hg => file_setFile_ne hg, fun _ => hlast⟩

end Close

/-! ## Taking files and descriptors -/

section Alloc

variable {s : Tables P} {hand : Fin NFILE → Int}

omit [DecidableEq P] in
theorem filealloc_returns (h : Inv s hand) : Returns filealloc s fun r t =>
    (r = none ∧ t = s) ∨ ∃ f, r = some f ∧ (s.file f).ref = 0 ∧
      t = s.setFile f { s.file f with ref := 1 } ∧ Inv t (bump hand f 1) := by
  refine returns_get ?_
  split
  · exact returns_pure (.inl ⟨rfl, rfl⟩)
  · next f hf =>
    have href : (s.file f).ref = 0 := by simpa using List.find?_some hf
    refine (returns_set (Q := fun _ t => t = s.setFile f { s.file f with ref := 1 }) rfl).bind ?_
    rintro - _ rfl
    refine returns_pure (.inr ⟨f, rfl, href, rfl, ?_⟩)
    have hnew := h.setRef (n := 1) (by decide) f
    rwa [href, show ((1 : Nat) : Int) - (0 : Nat) = 1 by decide] at hnew

omit [DecidableEq P] in
theorem fdalloc_returns (h : Inv s hand) (f : Fin NFILE) : Returns (fdalloc f) s fun r t =>
    (r = none ∧ t = s) ∨ ∃ fd, r = some fd ∧ s.ofile fd = none ∧ t = s.setSlot fd (some f) ∧
      Inv t (bump hand f (-1)) := by
  refine returns_get ?_
  split
  · exact returns_pure (.inl ⟨rfl, rfl⟩)
  · next fd hfd =>
    have hfree : s.ofile fd = none := by simpa using List.find?_some hfd
    refine (returns_set (Q := fun _ t => t = s.setSlot fd (some f)) rfl).bind ?_
    rintro - _ rfl
    exact returns_pure (.inr ⟨fd, rfl, hfree, rfl, h.setSlot_some hfree f⟩)

omit [DecidableEq P] in
theorem kalloc_returns : Returns kalloc s fun r t =>
    (r = none ∧ t = s) ∨ ∃ p free, r = some p ∧ s.free = p :: free ∧ t = { s with free } := by
  refine returns_get ?_
  split
  · exact returns_pure (.inl ⟨rfl, rfl⟩)
  · next p free hfree =>
    refine (returns_set (Q := fun _ t => t = { s with free }) rfl).bind ?_
    rintro - _ rfl
    exact returns_pure (.inr ⟨p, free, rfl, hfree, rfl⟩)

/-- A file that was just taken and is given back. -/
theorem fileclose_new {f : Fin NFILE} (h : Inv s (bump hand f 1)) (href : (s.file f).ref = 1)
    (htype : (s.file f).type = .none) : Returns (fileclose f) s fun _ t =>
      Inv t hand ∧ t.ofile = s.ofile ∧ t.free = s.free ∧ ∀ g, g ≠ f → t.file g = s.file g := by
  refine (fileclose_returns h (by omega)).mono ?_
  intro _ t ht
  refine ⟨?_, ht.ofile, ?_, ht.others⟩
  · have hinv := ht.inv
    rwa [bump_bump, show (1 : Int) + -1 = 0 by decide, bump_zero] at hinv
  · rw [ht.free, freeAfter_of_ne (by rw [htype]; decide)]

/-- The tables after the assignments of `pipealloc`. -/
def Tables.setEnds (s : Tables P) (f₀ f₁ : Fin NFILE) (p : P) : Tables P :=
  ((s.setPipe p ⟨true, true⟩).setEnd f₀ p false).setEnd f₁ p true

section Ends

variable {f₀ f₁ : Fin NFILE} {p : P}

theorem file_setEnds_ne {g : Fin NFILE} (h₀ : g ≠ f₀) (h₁ : g ≠ f₁) :
    (s.setEnds f₀ f₁ p).file g = s.file g := by
  unfold Tables.setEnds Tables.setEnd
  rw [file_setFile_ne h₁, file_setFile_ne h₀]
  rfl

theorem file_setEnds_left (hne : f₀ ≠ f₁) : (s.setEnds f₀ f₁ p).file f₀ =
    { s.file f₀ with type := .pipe, readable := true, writable := false, pipe := some p } := by
  unfold Tables.setEnds Tables.setEnd
  rw [file_setFile_ne hne, file_setFile_self]
  rfl

theorem file_setEnds_right (hne : f₀ ≠ f₁) : (s.setEnds f₀ f₁ p).file f₁ =
    { s.file f₁ with type := .pipe, readable := false, writable := true, pipe := some p } := by
  unfold Tables.setEnds Tables.setEnd
  rw [file_setFile_self, file_setFile_ne hne.symm]
  rfl

/-- The ends of the pipes after a pipe was made. -/
theorem end_setEnds (hne : f₀ ≠ f₁) (h₀ : (s.file f₀).type = .none)
    (h₁ : (s.file f₁).type = .none) {q : P} {w : Bool} {g : Fin NFILE} :
    End (s.setEnds f₀ f₁ p) q w g ↔
      (q = p ∧ g = if w then f₁ else f₀) ∨ End s q w g := by
  rcases eq_or_ne g f₁ with rfl | hg₁
  · have hold : ¬ End s q w g := fun hend => by rw [hend.1] at h₁; cases h₁
    unfold End
    rw [file_setEnds_right hne]
    constructor
    · rintro ⟨-, hpipe, rfl⟩
      exact .inl ⟨(Option.some.inj hpipe).symm, rfl⟩
    · rintro (⟨rfl, hw⟩ | hend)
      · cases w with
        | false => exact absurd hw.symm hne
        | true => exact ⟨rfl, rfl, rfl⟩
      · exact absurd hend hold
  rcases eq_or_ne g f₀ with rfl | hg₀
  · have hold : ¬ End s q w g := fun hend => by rw [hend.1] at h₀; cases h₀
    unfold End
    rw [file_setEnds_left hne]
    constructor
    · rintro ⟨-, hpipe, rfl⟩
      exact .inl ⟨(Option.some.inj hpipe).symm, rfl⟩
    · rintro (⟨rfl, hw⟩ | hend)
      · cases w with
        | false => exact ⟨rfl, rfl, rfl⟩
        | true => exact absurd hw hne
      · exact absurd hend hold
  · have hnew : ¬ (q = p ∧ g = if w then f₁ else f₀) := by
      rintro ⟨-, hg⟩
      cases w
      · exact hg₀ hg
      · exact hg₁ hg
    unfold End
    rw [file_setEnds_ne hg₀ hg₁]
    simp only [hnew, false_or]

/-- A pipe is made in a free page, of two files that were just taken. -/
theorem Inv.setEnds (h : Inv s hand) (hne : f₀ ≠ f₁) (h₀ : (s.file f₀).type = .none)
    (h₁ : (s.file f₁).type = .none) (href₀ : 0 < (s.file f₀).ref) (href₁ : 0 < (s.file f₁).ref)
    {free : List P} (hfree : s.free = p :: free) :
    Inv ({ s with free }.setEnds f₀ f₁ p) hand := by
  have hend : ∀ q w g, End ({ s with free }.setEnds f₀ f₁ p) q w g ↔
      (q = p ∧ g = if w then f₁ else f₀) ∨ End s q w g :=
    fun q w g => end_setEnds (s := { s with free }) hne h₀ h₁
  have hnodup := h.nodup
  rw [hfree, List.nodup_cons] at hnodup
  have hold : ∀ w g, ¬ End s p w g := fun w g hg =>
    h.page p w g hg (hfree ▸ List.mem_cons_self)
  have href : ∀ g, (({ s with free }.setEnds f₀ f₁ p).file g).ref = (s.file g).ref := by
    intro g
    rcases eq_or_ne g f₁ with rfl | hg₁
    · rw [file_setEnds_right hne]
    rcases eq_or_ne g f₀ with rfl | hg₀
    · rw [file_setEnds_left hne]
    · rw [file_setEnds_ne hg₀ hg₁]
  refine ⟨fun g => ?_, fun g hg => ?_, fun g hg => ?_, fun q w g hg => ?_,
    fun q w g k hg hk => ?_, fun q w g hg w' => ?_, hnodup.2⟩
  · rw [href]
    exact h.counted g
  · rw [href] at hg
    have hg₀ : g ≠ f₀ := by rintro rfl; omega
    have hg₁ : g ≠ f₁ := by rintro rfl; omega
    rw [file_setEnds_ne hg₀ hg₁]
    exact h.closed g hg
  · rcases eq_or_ne g f₁ with rfl | hg₁
    · rw [file_setEnds_right hne]
      exact ⟨p, (hend p _ g).mpr (.inl ⟨rfl, rfl⟩)⟩
    rcases eq_or_ne g f₀ with rfl | hg₀
    · rw [file_setEnds_left hne]
      exact ⟨p, (hend p _ g).mpr (.inl ⟨rfl, rfl⟩)⟩
    · rw [file_setEnds_ne hg₀ hg₁] at hg ⊢
      obtain ⟨q, hq⟩ := h.pointer g hg
      exact ⟨q, (hend q _ g).mpr (.inr hq)⟩
  · rcases (hend q w g).mp hg with ⟨rfl, -⟩ | hg
    · exact hnodup.1
    · have hpage := h.page q w g hg
      rw [hfree] at hpage
      exact fun hmem => hpage (List.mem_cons_of_mem _ hmem)
  · rcases (hend q w g).mp hg with ⟨rfl, rfl⟩ | hg'
    · exact ((hend q w k).mp hk).elim (fun hk => hk.2.symm) fun hk => absurd hk (hold w k)
    · rcases (hend q w k).mp hk with ⟨rfl, -⟩ | hk'
      · exact absurd hg' (hold w g)
      · exact h.unique q w g k hg' hk'
  · rcases eq_or_ne q p with rfl | hq
    · have hopen : ({ s with free }.setEnds f₀ f₁ q).pipe q = ⟨true, true⟩ := Function.update_self ..
      rw [hopen]
      constructor
      · exact fun _ => ⟨_, (hend q w' _).mpr (.inl ⟨rfl, rfl⟩)⟩
      · exact fun _ => by cases w' <;> rfl
    · have hpipe : ({ s with free }.setEnds f₀ f₁ p).pipe q = s.pipe q :=
        Function.update_of_ne hq ..
      have hsame : ∀ w g, End ({ s with free }.setEnds f₀ f₁ p) q w g ↔ End s q w g := fun w g =>
        (hend q w g).trans ⟨fun hg => hg.resolve_left fun hnew => hq hnew.1, .inr⟩
      rw [hpipe, h.flags q w g ((hsame w g).mp hg) w']
      exact exists_congr fun k => (hsame w' k).symm

/-- What `pipealloc` gives: nothing, with everything as it was, or two new files for the ends of
a pipe in a page that was free. -/
def Piped (s : Tables P) (hand : Fin NFILE → Int) :
    Option (Fin NFILE × Fin NFILE) → Tables P → Prop
  | none, t => Inv t hand ∧ t.ofile = s.ofile ∧ t.free = s.free
  | some (f₀, f₁), t => Inv t (bump (bump hand f₀ 1) f₁ 1) ∧ t.ofile = s.ofile ∧
      (t.file f₀).ref = 1 ∧ (t.file f₁).ref = 1 ∧
      ∃ p, s.free = p :: t.free ∧ End t p false f₀ ∧ End t p true f₁

end Ends

theorem pipealloc_returns (h : Inv s hand) : Returns pipealloc s (Piped s hand) := by
  refine (filealloc_returns h).bind ?_
  rintro _ _ (⟨rfl, rfl⟩ | ⟨f₀, rfl, href₀, rfl, hinv₀⟩)
  · exact returns_pure ⟨h, rfl, rfl⟩
  obtain ⟨s₀, hs₀⟩ : ∃ s₀, s₀ = s.setFile f₀ { s.file f₀ with ref := 1 } := ⟨_, rfl⟩
  have hf₀ : s₀.file f₀ = { s.file f₀ with ref := 1 } := by rw [hs₀, file_setFile_self]
  have htype₀ : (s₀.file f₀).type = .none := by rw [hf₀]; exact h.closed f₀ href₀
  have hone₀ : (s₀.file f₀).ref = 1 := by rw [hf₀]
  have hofile₀ : s₀.ofile = s.ofile := by rw [hs₀]; rfl
  have hfree₀ : s₀.free = s.free := by rw [hs₀]; rfl
  rw [← hs₀] at hinv₀ ⊢
  refine (filealloc_returns hinv₀).bind ?_
  rintro _ _ (⟨rfl, rfl⟩ | ⟨f₁, rfl, href₁, rfl, hinv₁⟩)
  · show Returns (fileclose f₀ >>= fun _ => pure none) _ _
    refine (fileclose_new hinv₀ hone₀ htype₀).bind ?_
    rintro - t ⟨hinv, hofile, hfree, -⟩
    exact returns_pure ⟨hinv, hofile.trans hofile₀, hfree.trans hfree₀⟩
  have hne : f₀ ≠ f₁ := by
    rintro rfl
    omega
  obtain ⟨s₁, hs₁⟩ : ∃ s₁, s₁ = s₀.setFile f₁ { s₀.file f₁ with ref := 1 } := ⟨_, rfl⟩
  have hf₁ : s₁.file f₁ = { s₀.file f₁ with ref := 1 } := by rw [hs₁, file_setFile_self]
  have htype₁ : (s₁.file f₁).type = .none := by rw [hf₁]; exact hinv₀.closed f₁ href₁
  have hone₁ : (s₁.file f₁).ref = 1 := by rw [hf₁]
  have hsame : s₁.file f₀ = s₀.file f₀ := by rw [hs₁, file_setFile_ne hne]
  have hofile₁ : s₁.ofile = s.ofile := by rw [hs₁]; exact hofile₀
  have hfree₁ : s₁.free = s.free := by rw [hs₁]; exact hfree₀
  rw [← hs₁] at hinv₁ ⊢
  refine kalloc_returns.bind ?_
  rintro _ _ (⟨rfl, rfl⟩ | ⟨p, free, rfl, hpage, rfl⟩)
  · -- No page: both files are given back.
    rw [bump_comm] at hinv₁
    show Returns (fileclose f₀ >>= fun _ => fileclose f₁ >>= fun _ => pure none) _ _
    refine (fileclose_new hinv₁ (by rw [hsame]; exact hone₀) (by rw [hsame]; exact htype₀)).bind ?_
    rintro - t ⟨hinv, hofile, hfree, hothers⟩
    refine (fileclose_new hinv (by rw [hothers f₁ hne.symm]; exact hone₁)
      (by rw [hothers f₁ hne.symm]; exact htype₁)).bind ?_
    rintro - u ⟨hinv', hofile', hfree', -⟩
    exact returns_pure ⟨hinv', (hofile'.trans hofile).trans hofile₁,
      (hfree'.trans hfree).trans hfree₁⟩
  · have hends := hinv₁.setEnds hne (by rw [hsame]; exact htype₀) htype₁
      (by rw [hsame, hone₀]; decide) (by rw [hone₁]; decide) hpage
    have hend : ∀ w g, End ({ s₁ with free }.setEnds f₀ f₁ p) p w g ↔ _ := fun w g =>
      end_setEnds (s := { s₁ with free }) hne (by rw [← htype₀, ← hsame]) htype₁
    refine (returns_modify (Q := fun _ t => t = { s₁ with free }.setEnds f₀ f₁ p) rfl).bind ?_
    rintro - _ rfl
    refine returns_pure ⟨hends, hofile₁, ?_, ?_, p, hfree₁.symm.trans hpage,
      (hend false f₀).mpr (.inl ⟨rfl, rfl⟩), (hend true f₁).mpr (.inl ⟨rfl, rfl⟩)⟩
    · rw [file_setEnds_left hne]
      exact (congrArg File.ref hsame).trans hone₀
    · rw [file_setEnds_right hne]
      exact hone₁

end Alloc

/-! ## What a call does -/

section Calls

variable {s : Tables P} {hand : Fin NFILE → Int} {f : Fin NFILE} {fd : Fin NOFILE} {p : P}

omit [DecidableEq P] in
theorem argfd_eq_some {arg : Option Int} (h : argfd s arg = some (fd, f)) :
    arg = some ((fd : Nat) : Int) ∧ s.ofile fd = some f := by
  unfold argfd at h
  split at h
  · cases h
  · next n =>
    split at h
    · next hn =>
      obtain ⟨g, hg, heq⟩ := Option.map_eq_some_iff.mp h
      cases heq
      exact ⟨congrArg some (Int.toNat_of_nonneg hn.1).symm, hg⟩
    · cases h

omit [DecidableEq P] in
theorem argfd_of_held (h : s.ofile fd = some f) :
    argfd s (some ((fd : Nat) : Int)) = some (fd, f) := by
  have hn : 0 ≤ ((fd : Nat) : Int) ∧ ((fd : Nat) : Int) < NOFILE := ⟨by omega, by omega⟩
  simp only [argfd, dif_pos hn, Int.toNat_natCast, h, Option.map_some]

omit [DecidableEq P] in
theorem slots_pos (h : s.ofile fd = some f) : 0 < s.slots f :=
  Finset.card_pos.mpr ⟨fd, Finset.mem_filter.mpr ⟨Finset.mem_univ fd, h⟩⟩

omit [DecidableEq P] in
theorem Inv.ref_eq_slots (h : Inv s 0) (f : Fin NFILE) : (s.file f).ref = s.slots f := by
  have hcount := h.counted f
  rw [Pi.zero_apply, Int.add_zero] at hcount
  exact Int.natCast_inj.mp hcount

omit [DecidableEq P] in
theorem filedup_returns (h : Inv s hand) (href : 0 < (s.file f).ref) :
    Returns (filedup f) s fun _ t =>
      Inv t (bump hand f 1) ∧ t.ofile = s.ofile ∧ t.free = s.free := by
  refine returns_get ?_
  rw [if_neg (by omega)]
  refine returns_set ⟨?_, rfl, rfl⟩
  have hmore := h.setRef (n := (s.file f).ref + 1) (by omega) f
  rwa [show (((s.file f).ref + 1 : Nat) : Int) - (s.file f).ref = 1 by omega] at hmore

omit [DecidableEq P] in
theorem sysDup_returns (h : Inv s 0) (arg : Option Int) : Returns (sysDup arg) s fun r t =>
    Inv t 0 ∧ t.free = s.free ∧ (r = -1 → t.ofile = s.ofile) := by
  refine returns_get ?_
  split
  · exact returns_pure ⟨h, rfl, fun _ => rfl⟩
  · next fd₀ f harg =>
    have href : 0 < (s.file f).ref := by
      rw [h.ref_eq_slots]
      exact slots_pos (argfd_eq_some harg).2
    refine (fdalloc_returns h f).bind ?_
    rintro _ _ (⟨rfl, rfl⟩ | ⟨fd, rfl, -, rfl, hinv⟩)
    · exact returns_pure ⟨h, rfl, fun _ => rfl⟩
    refine (filedup_returns hinv href).bind ?_
    rintro - t ⟨hinv', -, hfree⟩
    rw [bump_bump, show (-1 : Int) + 1 = 0 by decide, bump_zero] at hinv'
    refine returns_pure ⟨hinv', hfree, fun hbad => ?_⟩
    have hpos : (0 : Int) ≤ ((fd : Nat) : Int) := Int.natCast_nonneg _
    omega

/-- `sys_close` gives back the reference of a descriptor. -/
theorem sysClose_returns (h : Inv s 0) (arg : Option Int) : Returns (sysClose arg) s fun _ t =>
    Inv t 0 ∧ ((argfd s arg = none ∧ t.free = s.free) ∨
      ∃ fd f, argfd s arg = some (fd, f) ∧ t.free = s.freeAfter f) := by
  refine returns_get ?_
  split
  · next harg => exact returns_pure ⟨h, .inl ⟨harg, rfl⟩⟩
  · next fd f harg =>
    have hheld := (argfd_eq_some harg).2
    refine (returns_set (Q := fun _ t => t = s.setSlot fd none) rfl).bind ?_
    rintro - _ rfl
    have href : 0 < (s.file f).ref := by
      rw [h.ref_eq_slots]
      exact slots_pos hheld
    refine (fileclose_returns (h.setSlot_none hheld) href).bind ?_
    rintro - t ht
    have hinv := ht.inv
    rw [bump_bump, show (1 : Int) + -1 = 0 by decide, bump_zero] at hinv
    exact returns_pure ⟨hinv, .inr ⟨fd, f, harg, ht.free⟩⟩

/-- Both files of a new pipe are closed.  The page goes with the second one. -/
theorem fileclose_ends {f₀ f₁ : Fin NFILE} (h : Inv s (bump (bump hand f₀ 1) f₁ 1))
    (h₀ : End s p false f₀) (h₁ : End s p true f₁) (href₀ : (s.file f₀).ref = 1)
    (href₁ : (s.file f₁).ref = 1) {β : Type} (b : β) :
    Returns (fileclose f₀ >>= fun _ => fileclose f₁ >>= fun _ => pure b) s fun r t =>
      r = b ∧ Inv t hand ∧ t.ofile = s.ofile ∧ t.free = p :: s.free := by
  have hne : f₁ ≠ f₀ := by
    rintro rfl
    exact Bool.noConfusion (h₁.2.2.symm.trans h₀.2.2)
  refine (fileclose_returns h (by omega)).bind ?_
  rintro - t ht
  have hsame := ht.others f₁ hne
  have hend : End t p true f₁ := by
    unfold End
    rw [hsame]
    exact h₁
  -- No file is left for the first end, so the second one is the last.
  have hclosed : (t.pipe p).isOpen false = false := by
    rw [Bool.eq_false_iff]
    intro hopen
    obtain ⟨g, hg⟩ := (ht.inv.flags p true f₁ hend false).mp hopen
    rcases eq_or_ne g f₀ with rfl | hg₀
    · exact FileType.noConfusion (hg.1.symm.trans (ht.last href₀))
    · have hold : End s p false g := by
        unfold End
        rw [← ht.others g hg₀]
        exact hg
      exact hg₀ (h.unique p false g f₀ hold h₀)
  have hfree : t.free = s.free := by
    have hopen : (s.pipe p).isOpen true = true := (h.flags p false f₀ h₀ true).mpr ⟨f₁, h₁⟩
    rw [ht.free, freeAfter_of_end h₀, if_neg]
    rintro ⟨-, hnot⟩
    rw [Bool.not_false, hopen] at hnot
    cases hnot
  refine (fileclose_returns ht.inv (by rw [hsame]; omega)).bind ?_
  rintro - u hu
  refine returns_pure ⟨rfl, ?_, hu.ofile.trans ht.ofile, ?_⟩
  · have hinv := hu.inv
    rwa [bump_comm, bump_bump, bump_comm, bump_bump, bump_comm, show (1 : Int) + -1 = 0 by decide,
      bump_zero, bump_zero] at hinv
  · rw [hu.free, freeAfter_of_end hend, if_pos ⟨by rw [hsame]; exact href₁, hclosed⟩, hfree]

/-- A new pipe: its page was free, and each end has a descriptor. -/
def Made (s : Tables P) (t : Tables P) : Prop :=
  ∃ p fd₀ fd₁ f₀ f₁, s.free = p :: t.free ∧ t.ofile fd₀ = some f₀ ∧ t.ofile fd₁ = some f₁ ∧
    End t p false f₀ ∧ End t p true f₁

theorem sysPipe_returns (h : Inv s 0) (arg : Bool) : Returns (sysPipe arg) s fun r t =>
    Inv t 0 ∧ ((r = -1 ∧ t.ofile = s.ofile ∧ t.free = s.free) ∨ (r = 0 ∧ Made s t)) := by
  unfold sysPipe
  split
  · exact returns_pure ⟨h, .inl ⟨rfl, rfl, rfl⟩⟩
  refine (pipealloc_returns h).bind ?_
  rintro (_ | ⟨rf, wf⟩) s₁ hpiped
  · exact returns_pure ⟨hpiped.1, .inl ⟨rfl, hpiped.2⟩⟩
  obtain ⟨hinv, hofile, href₀, href₁, p, hfree, hend₀, hend₁⟩ := hpiped
  refine (fdalloc_returns hinv rf).bind ?_
  rintro _ _ (⟨rfl, rfl⟩ | ⟨fd₀, rfl, hslot₀, rfl, hinv₀⟩)
  · refine (fileclose_ends hinv hend₀ hend₁ href₀ href₁ (-1)).mono ?_
    rintro _ t ⟨rfl, hinv', hofile', hfree'⟩
    exact ⟨hinv', .inl ⟨rfl, hofile'.trans hofile, hfree'.trans hfree.symm⟩⟩
  refine (fdalloc_returns hinv₀ wf).bind ?_
  rintro _ _ (⟨rfl, rfl⟩ | ⟨fd₁, rfl, hslot₁, rfl, hinv₁⟩)
  · -- The first descriptor is cleared again.
    have hback : (s₁.setSlot fd₀ (some rf)).setSlot fd₀ none = s₁ := by
      unfold Tables.setSlot
      simp only [Function.update_idem]
      rw [← hslot₀, Function.update_eq_self]
    refine (returns_modify (Q := fun _ t => t = s₁) hback).bind ?_
    rintro - _ rfl
    refine (fileclose_ends hinv hend₀ hend₁ href₀ href₁ (-1)).mono ?_
    rintro _ t ⟨rfl, hinv', hofile', hfree'⟩
    exact ⟨hinv', .inl ⟨rfl, hofile'.trans hofile, hfree'.trans hfree.symm⟩⟩
  · have hne : fd₀ ≠ fd₁ := by
      rintro rfl
      exact absurd (hslot₁.symm.trans (Function.update_self ..)) (Option.some_ne_none rf).symm
    have hheld₀ : ((s₁.setSlot fd₀ (some rf)).setSlot fd₁ (some wf)).ofile fd₀ = some rf :=
      (Function.update_of_ne hne ..).trans (Function.update_self ..)
    refine returns_pure ⟨?_, .inr ⟨rfl, p, fd₀, fd₁, rf, wf, hfree, hheld₀,
      Function.update_self .., hend₀, hend₁⟩⟩
    rwa [bump_comm, bump_bump, bump_comm, bump_bump, show (1 : Int) + -1 = 0 by decide,
      bump_zero, bump_zero] at hinv₁

theorem sysOpen_returns (h : Inv s 0) (found : Option Nat) (omode : Nat) :
    Returns (sysOpen found omode) s fun _ t => Inv t 0 ∧ t.free = s.free := by
  unfold sysOpen
  split
  · exact returns_pure ⟨h, rfl⟩
  · next ip =>
    refine (filealloc_returns h).bind ?_
    rintro _ _ (⟨rfl, rfl⟩ | ⟨f, rfl, href, rfl, hinv⟩)
    · exact returns_pure ⟨h, rfl⟩
    have htype : ((s.setFile f { s.file f with ref := 1 }).file f).type = .none := by
      rw [file_setFile_self]
      exact h.closed f href
    have hone : ((s.setFile f { s.file f with ref := 1 }).file f).ref = 1 := by
      rw [file_setFile_self]
    refine (fdalloc_returns hinv f).bind ?_
    rintro _ _ (⟨rfl, rfl⟩ | ⟨fd, rfl, -, rfl, hinv'⟩)
    · refine (fileclose_new hinv hone htype).bind ?_
      rintro - t ⟨hinv', -, hfree, -⟩
      exact returns_pure ⟨hinv', hfree⟩
    · refine (returns_modify (Q := fun _ t => Inv t 0 ∧ t.free = s.free) ⟨?_, rfl⟩).bind ?_
      · rw [bump_bump, show (1 : Int) + -1 = 0 by decide, bump_zero] at hinv'
        exact hinv'.setInode (Nat.lt_of_lt_of_eq Nat.one_pos hone.symm) htype ip omode
      · rintro - t ht
        exact returns_pure ht

/-- Descriptor `fd` holds an end of the pipe in page `p`, and no other descriptor does: the other
end is closed already. -/
def LastEnd (s : Tables P) (fd : Fin NOFILE) (p : P) : Prop :=
  (∃ f w, s.ofile fd = some f ∧ End s p w f) ∧
    ∀ fd' f w, s.ofile fd' = some f → End s p w f → fd' = fd

omit [DecidableEq P] in
theorem slots_eq_one_iff (hheld : s.ofile fd = some f) :
    s.slots f = 1 ↔ ∀ fd', s.ofile fd' = some f → fd' = fd := by
  have hmem : ∀ fd', fd' ∈ (Finset.univ.filter fun d => s.ofile d = some f) ↔
      s.ofile fd' = some f := fun fd' => by simp
  unfold Tables.slots
  rw [Finset.card_eq_one]
  constructor
  · rintro ⟨d, hd⟩ fd' hfd'
    have hfd : fd ∈ ({d} : Finset _) := hd ▸ (hmem fd).mpr hheld
    have hfd' : fd' ∈ ({d} : Finset _) := hd ▸ (hmem fd').mpr hfd'
    exact (Finset.mem_singleton.mp hfd').trans (Finset.mem_singleton.mp hfd).symm
  · intro hall
    refine ⟨fd, Finset.eq_singleton_iff_unique_mem.mpr ⟨(hmem fd).mpr hheld, fun d hd => ?_⟩⟩
    exact hall d ((hmem d).mp hd)

omit [DecidableEq P] in
/-- A file in use as an end of a pipe is in a descriptor. -/
theorem Inv.exists_slot (h : Inv s 0) {w : Bool} (hend : End s p w f) :
    ∃ fd, s.ofile fd = some f := by
  have href : (s.file f).ref ≠ 0 := fun hzero =>
    FileType.noConfusion (hend.1.symm.trans (h.closed f hzero))
  rw [h.ref_eq_slots] at href
  obtain ⟨fd, hfd⟩ := Finset.card_pos.mp (Nat.pos_of_ne_zero href)
  exact ⟨fd, (Finset.mem_filter.mp hfd).2⟩

omit [DecidableEq P] in
theorem Inv.lastEnd_iff (h : Inv s 0) (hheld : s.ofile fd = some f) {w : Bool}
    (hend : End s p w f) :
    LastEnd s fd p ↔ (s.file f).ref = 1 ∧ (s.pipe p).isOpen (!w) = false := by
  rw [h.ref_eq_slots, slots_eq_one_iff hheld]
  constructor
  · rintro ⟨-, hlast⟩
    refine ⟨fun fd' hfd' => hlast fd' f w hfd' hend, ?_⟩
    rw [Bool.eq_false_iff]
    intro hopen
    obtain ⟨g, hg⟩ := (h.flags p w f hend (!w)).mp hopen
    obtain ⟨fd', hfd'⟩ := h.exists_slot hg
    rw [hlast fd' g _ hfd' hg, hheld] at hfd'
    obtain rfl := Option.some.inj hfd'
    exact Bool.not_ne_self w (hg.2.2.symm.trans hend.2.2)
  · rintro ⟨hone, hclosed⟩
    refine ⟨⟨f, w, hheld, hend⟩, fun fd' g w' hfd' hg => ?_⟩
    have hw : w' = w := by
      by_contra hw
      have hopen := (h.flags p w f hend w').mpr ⟨g, hg⟩
      rw [Bool.eq_not.mpr hw, hclosed] at hopen
      cases hopen
    rw [hw] at hg
    exact hone fd' (by rw [hfd', h.unique p w g f hg hend])

/-- What a call does to the descriptors, the counts and the free pages. -/
structure Outcome (s : Tables P) (c : Call) (r : Int) (t : Tables P) : Prop where
  /-- A `sys_dup` or a `sys_pipe` that fails leaves them as they were. -/
  failed : ((∃ arg, c = .dup arg) ∨ ∃ arg, c = .pipe arg) → r = -1 →
    t.ofile = s.ofile ∧ (∀ f, (t.file f).ref = (s.file f).ref) ∧ t.free = s.free
  /-- A `sys_pipe` that does not fail takes a page. -/
  made : (∃ arg, c = .pipe arg) → r ≠ -1 → Made s t
  /-- The close of the last descriptor of a pipe frees its page. -/
  freed : ∀ (fd : Fin NOFILE) p, c = .close (some ((fd : Nat) : Int)) → LastEnd s fd p →
    p ∉ s.free ∧ t.free = p :: s.free
  /-- Nothing else frees a page. -/
  only : ∀ p, p ∉ s.free → p ∈ t.free →
    ∃ fd : Fin NOFILE, c = .close (some ((fd : Nat) : Int)) ∧ LastEnd s fd p

/-- Every call returns. -/
theorem Call.code_returns (h : Inv s 0) (c : Call) :
    Returns c.code s fun r t => Inv t 0 ∧ Outcome s c r t := by
  cases c with
  | dup arg =>
    refine (sysDup_returns h arg).mono ?_
    rintro r t ⟨hinv, hfree, hfail⟩
    refine ⟨hinv, fun _ hr => ⟨hfail hr, h.ref_eq hinv (hfail hr), hfree⟩, ?_, ?_, ?_⟩
    · rintro ⟨_, harg⟩
      cases harg
    · intro _ _ harg
      cases harg
    · intro p hold hnew
      exact absurd (hfree ▸ hnew) hold
  | close arg =>
    refine (sysClose_returns h arg).mono ?_
    rintro r t ⟨hinv, hclose⟩
    refine ⟨hinv, ?_, ?_, ?_, ?_⟩
    · rintro (⟨_, harg⟩ | ⟨_, harg⟩) <;> cases harg
    · rintro ⟨_, harg⟩
      cases harg
    · intro fd p harg hlast
      cases harg
      obtain ⟨f, w, hheld, hend⟩ := hlast.1
      rcases hclose with ⟨hnone, -⟩ | ⟨_, _, hsome, hfree⟩
      · rw [argfd_of_held hheld] at hnone
        cases hnone
      · rw [argfd_of_held hheld] at hsome
        cases hsome
        rw [freeAfter_of_end hend, if_pos ((h.lastEnd_iff hheld hend).mp hlast)] at hfree
        exact ⟨h.page p w f hend, hfree⟩
    · intro p hold hnew
      rcases hclose with ⟨-, hfree⟩ | ⟨fd, f, hsome, hfree⟩
      · exact absurd (hfree ▸ hnew) hold
      obtain ⟨rfl, hheld⟩ := argfd_eq_some hsome
      rw [hfree] at hnew
      by_cases htype : (s.file f).type = .pipe
      · obtain ⟨q, hend⟩ := h.pointer f htype
        rw [freeAfter_of_end hend] at hnew
        split at hnew
        · next hlast =>
          rcases List.mem_cons.mp hnew with rfl | hmem
          · exact ⟨fd, rfl, (h.lastEnd_iff hheld hend).mpr hlast⟩
          · exact absurd hmem hold
        · exact absurd hnew hold
      · rw [freeAfter_of_ne htype] at hnew
        exact absurd hnew hold
  | pipe arg =>
    refine (sysPipe_returns h arg).mono ?_
    rintro r t ⟨hinv, hcase⟩
    refine ⟨hinv, fun _ hr => ?_, fun _ hr => ?_, ?_, fun p hold hnew => ?_⟩
    · rcases hcase with ⟨-, hofile, hfree⟩ | ⟨rfl, -⟩
      · exact ⟨hofile, h.ref_eq hinv hofile, hfree⟩
      · cases hr
    · exact hcase.elim (fun hbad => absurd hbad.1 hr) And.right
    · intro _ _ harg
      cases harg
    · rcases hcase with ⟨-, -, hfree⟩ | ⟨-, q, -, -, -, -, hfree, -⟩
      · exact absurd (hfree ▸ hnew) hold
      · exact absurd (hfree ▸ List.mem_cons_of_mem q hnew) hold
  | openFile found omode =>
    refine (sysOpen_returns h found omode).mono ?_
    rintro r t ⟨hinv, hfree⟩
    refine ⟨hinv, ?_, ?_, ?_, ?_⟩
    · rintro (⟨_, harg⟩ | ⟨_, harg⟩) <;> cases harg
    · rintro ⟨_, harg⟩
      cases harg
    · intro _ _ harg
      cases harg
    · intro p hold hnew
      exact absurd (hfree ▸ hnew) hold

end Calls

/-! ## Runs of calls -/

/-- Nothing is open.  The descriptors may be made by the calls themselves. -/
structure Fresh (s : Tables P) : Prop where
  file : ∀ f, (s.file f).ref = 0 ∧ (s.file f).type = .none
  ofile : ∀ fd, s.ofile fd = none
  free : s.free.Nodup

omit [DecidableEq P] in
theorem Fresh.inv {s : Tables P} (h : Fresh s) : Inv s 0 := by
  have hend : ∀ p w f, ¬ End s p w f := fun p w f hend =>
    FileType.noConfusion (hend.1.symm.trans (h.file f).2)
  refine ⟨fun f => ?_, fun f _ => (h.file f).2, fun f hpipe => ?_,
    fun p w f hf => absurd hf (hend p w f), fun p w f _ hf => absurd hf (hend p w f),
    fun p w f hf => absurd hf (hend p w f), h.free⟩
  · have hslots : s.slots f = 0 := by
      unfold Tables.slots
      simp [h.ofile]
    rw [(h.file f).1, hslots]
    rfl
  · rw [(h.file f).2] at hpipe
    cases hpipe

theorem Inv.step {s t : Tables P} {c : Call} (h : Inv s 0) (hstep : step c s = some t) :
    Inv t 0 := by
  obtain ⟨r, u, hrun, hinv, -⟩ := c.code_returns h
  unfold Files.step at hstep
  rw [hrun] at hstep
  exact Option.some.inj hstep ▸ hinv

/-- After any calls, each file has as many references as descriptors hold it, and a file without
references is in none.  The next call, whichever it is, returns: it does not panic and follows no
null pointer.  If it is a `sys_dup` or a `sys_pipe` that fails, it leaves the descriptors, the
references and the free pages as they were.  The page of a pipe becomes free by the close of the
last descriptor of its second end, once, and in no other way. -/
theorem descriptors_counted {s u : Tables P} {tr : List (Tables P × Call)} (hfresh : Fresh s)
    (h : Run step s tr u) :
    (∀ f, (u.file f).ref = u.slots f) ∧
    (∀ f, (u.file f).ref = 0 → ∀ fd, u.ofile fd ≠ some f) ∧
    u.free.Nodup ∧
    ∀ c : Call, ∃ r t, c.code.run u = .ok (r, t) ∧ Outcome u c r t := by
  have hinv := h.invariant_last (I := fun s => Inv s 0) (fun _ _ _ hs hstep => hs.step hstep) hfresh.inv
  refine ⟨hinv.ref_eq_slots, fun f hzero fd hheld => ?_, hinv.nodup, fun c => ?_⟩
  · have hpos := slots_pos hheld
    rw [← hinv.ref_eq_slots] at hpos
    omega
  · obtain ⟨r, t, hrun, -, hout⟩ := c.code_returns hinv
    exact ⟨r, t, hrun, hout⟩

/-- Three descriptors for a file, a pipe, a second pipe for which there is no page, and one end
of the first pipe closed. -/
def console : List Call :=
  [.openFile (some 1) 2, .dup (some 0), .dup (some 1), .pipe true, .pipe true, .close (some 3)]

/-- Nothing is open, and one page is free. -/
def onePage : Tables Nat where
  file _ := ⟨.none, 0, false, false, none, 0, 0⟩
  ofile _ := none
  pipe _ := ⟨false, false⟩
  free := [7]

theorem descriptors_counted_console :
    ∃ tr u, Run step onePage tr u ∧ tr.map Prod.snd = console ∧
      (∀ f, (u.file f).ref = u.slots f) ∧ u.slots ⟨0, by decide⟩ = 3 ∧
      u.free = [] ∧ ∃ r t, (Call.close (some 4)).code.run u = .ok (r, t) ∧
        Outcome u (.close (some 4)) r t := by
  obtain ⟨u, hu⟩ : ∃ u, exec step console onePage = some u :=
    Option.isSome_iff_exists.mp (by decide +kernel)
  obtain ⟨tr, hrun, hlabels⟩ := run_of_exec hu
  have hfresh : Fresh onePage := ⟨fun _ => ⟨rfl, rfl⟩, fun _ => rfl, by decide⟩
  obtain ⟨hcount, -, -, hnext⟩ := descriptors_counted hfresh hrun
  refine ⟨tr, u, hrun, hlabels, hcount, ?_, ?_, hnext _⟩
  · have hthree : (exec step console onePage).map (fun u => (u.file ⟨0, by decide⟩).ref) =
        some 3 := by decide +kernel
    rw [hu] at hthree
    rw [← hcount]
    exact Option.some.inj hthree
  · have hnone : (exec step console onePage).map (fun u => u.free) = some [] := by decide +kernel
    rw [hu] at hnone
    exact Option.some.inj hnone

end Xv6Arm.Files
