import Xv6Arm.Fs.Format
import Xv6Arm.Lib.Prog

/-!
# The inode layer

The state that the file system calls share, and the functions of `fs.c`, `log.c`
and `file.c` that they are made of, each as one step.  `fs.c` and `file.c` keep
the bodies of these functions in comments.

An inode is the record on the disk and the copy in the inode cache.  A directory
is the list of its entries: blocks are not modelled.  There is one device, so that
an inode number stands for a `struct inode *`.
-/

namespace Xv6Arm.Sys

open Fs Programs

/-! ## Data -/

/-- `NPROC`. -/
def NPROC : Nat := 64

/-- `NOFILE`. -/
def NOFILE : Nat := 16

/-- `NFILE`. -/
def NFILE : Nat := 100

/-- `NINODE`. -/
def NINODE : Nat := 50

/-- `T_DEV`. -/
def T_DEV : Nat := 3

/-- The entries that fit in a directory of `MAXFILE` blocks. -/
def MAXENTRIES : Nat := MAXFILE * BSIZE / 16

/-- A process. -/
abbrev Pid := Fin NPROC

/-- The name of a directory entry, of at most `DIRSIZ` bytes. -/
abbrev Name := List UInt8

/-- The name `.`. -/
def dot : Name := [46]

/-- The name `..`. -/
def dotdot : Name := [46, 46]

/-- The fields of an inode that the calls use.  A type of 0 is a free inode.  A disk of `mkfs` has
room for fewer than 2 ^ 15 entries, so that `short nlink` does not overflow. -/
structure Inode where
  type : Nat
  major : Int
  minor : Int
  nlink : Int
deriving DecidableEq

/-- A slot of a directory.  Inode number 0 is an empty slot. -/
structure Entry where
  inum : Nat
  name : Name
deriving DecidableEq

/-- The inodes on the disk, and the slots of the directories. -/
structure Disk where
  ninodes : Nat
  inode : Nat → Inode
  entries : Nat → List Entry

/-- The inodes that there is room for in the sectors before the bitmap.  `ialloc` looks at the first
`ninodes` only, but `ilock` takes any number. -/
def inodeRoom (ninodes : Nat) : Nat := (ninodes / IPB + 1) * IPB

namespace Disk

/-- The inode numbers of the disk. -/
def room (d : Disk) : Nat := inodeRoom d.ninodes

theorem ninodes_le_room (d : Disk) : d.ninodes ≤ d.room := by
  unfold room inodeRoom IPB
  omega

/-- Writes an inode. -/
def setInode (d : Disk) (i : Nat) (n : Inode) : Disk :=
  { d with inode := Function.update d.inode i n }

/-- Writes the slots of a directory. -/
def setEntries (d : Disk) (i : Nat) (es : List Entry) : Disk :=
  { d with entries := Function.update d.entries i es }

end Disk

/-- The type of a `struct file`. -/
inductive FileType
  | none
  | pipe
  | inode
deriving DecidableEq

/-- `struct file`. -/
structure File where
  type : FileType
  ref : Nat
  readable : Bool
  writable : Bool
  ip : Nat
  off : Nat
deriving DecidableEq

/-- The state that the calls share. -/
structure Kernel where
  disk : Disk
  /-- The copy of an inode in the cache. -/
  core : Nat → Inode
  ref : Nat → Nat
  /-- `I_VALID`: the copy was read from the disk. -/
  valid : Nat → Bool
  /-- `I_BUSY`: the inode is locked. -/
  busy : Nat → Bool
  /-- `log.busy`. -/
  logBusy : Bool
  /-- The process is between its own `begin_trans` and its own `commit_trans`.  The code does not
  keep this. -/
  inTrans : Pid → Bool
  /-- `proc->cwd`. -/
  cwd : Pid → Nat
  file : Nat → File
  /-- `proc->ofile`. -/
  ofile : Pid → Nat → Option Nat

/-! ## Paths -/

/-- `skipelem`: the next element of a path, and the rest without leading slashes. -/
def skipelem (path : List UInt8) : Option (Name × List UInt8) :=
  match path.dropWhile (· = 47) with
  | [] => none
  | c :: cs => some (((c :: cs).takeWhile (· ≠ 47)).take DIRSIZ,
      ((c :: cs).dropWhile (· ≠ 47)).dropWhile (· = 47))

/-- The elements that at most `n` rounds of `skipelem` give. -/
def elementsUpTo : Nat → List UInt8 → List Name
  | 0, _ => []
  | n + 1, path =>
      match skipelem path with
      | none => []
      | some (name, rest) => name :: elementsUpTo n rest

/-- The elements of a path. -/
def elements (path : List UInt8) : List Name := elementsUpTo path.length path

/-! ## The log and the inode cache -/

namespace Kernel

/-- `begin_trans`. -/
def beginTrans (p : Pid) (k : Kernel) : Outcome (Unit × Kernel) :=
  if k.logBusy then .blocked
  else .ok ((), { k with logBusy := true, inTrans := Function.update k.inTrans p true })

/-- `commit_trans`. -/
def commitTrans (p : Pid) (k : Kernel) : Outcome (Unit × Kernel) :=
  .ok ((), { k with logBusy := false, inTrans := Function.update k.inTrans p false })

/-- The inodes that the cache holds. -/
def cached (k : Kernel) : Nat := (List.range k.disk.room).countP fun i => 0 < k.ref i

/-- `iget`. -/
def iget (i : Nat) (k : Kernel) : Outcome (Unit × Kernel) :=
  if 0 < k.ref i then .ok ((), { k with ref := Function.update k.ref i (k.ref i + 1) })
  else if NINODE ≤ k.cached then .panic "iget: no inodes"
  else .ok ((), { k with ref := Function.update k.ref i 1, valid := Function.update k.valid i false,
                         busy := Function.update k.busy i false })

/-- `idup`. -/
def idup (i : Nat) (k : Kernel) : Outcome (Unit × Kernel) :=
  .ok ((), { k with ref := Function.update k.ref i (k.ref i + 1) })

/-- `ilock`. -/
def ilock (i : Nat) (k : Kernel) : Outcome (Unit × Kernel) :=
  if k.ref i < 1 then .panic "ilock"
  else if k.busy i then .blocked
  else if k.valid i then .ok ((), { k with busy := Function.update k.busy i true })
  else if (k.disk.inode i).type = 0 then .panic "ilock: no type"
  else .ok ((), { k with busy := Function.update k.busy i true,
                         core := Function.update k.core i (k.disk.inode i),
                         valid := Function.update k.valid i true })

/-- `iunlock`. -/
def iunlock (i : Nat) (k : Kernel) : Outcome (Unit × Kernel) :=
  if k.busy i = false ∨ k.ref i < 1 then .panic "iunlock"
  else .ok ((), { k with busy := Function.update k.busy i false })

/-- The test of `iput`: the last reference to an inode without links. -/
def lastPut (i : Nat) (k : Kernel) : Bool := k.ref i = 1 ∧ k.valid i ∧ (k.core i).nlink = 0

/-- `iput`.  The last reference to an inode without links frees it with its content. -/
def iput (i : Nat) (k : Kernel) : Outcome (Unit × Kernel) :=
  if k.lastPut i then
    if k.busy i then .panic "iput busy"
    else .ok ((), { k with disk := (k.disk.setEntries i []).setInode i { k.core i with type := 0 },
                           core := Function.update k.core i { k.core i with type := 0 },
                           valid := Function.update k.valid i false,
                           ref := Function.update k.ref i 0 })
  else .ok ((), { k with ref := Function.update k.ref i (k.ref i - 1) })

/-- The fields of the copy of a locked inode. -/
def load (i : Nat) (k : Kernel) : Outcome (Inode × Kernel) := .ok (k.core i, k)

/-- Assigns the fields of the copy of a locked inode. -/
def store (i : Nat) (n : Inode) (k : Kernel) : Outcome (Unit × Kernel) :=
  .ok ((), { k with core := Function.update k.core i n })

/-- `iupdate`. -/
def iupdate (i : Nat) (k : Kernel) : Outcome (Unit × Kernel) :=
  .ok ((), { k with disk := k.disk.setInode i (k.core i) })

/-- The free inode that `ialloc` finds. -/
def freeInode (k : Kernel) : Option Nat :=
  (List.range' 1 (k.disk.ninodes - 1)).find? fun i => (k.disk.inode i).type = 0

/-- `ialloc`. -/
def ialloc (type : Nat) (k : Kernel) : Outcome (Nat × Kernel) :=
  match k.freeInode with
  | none => .panic "ialloc: no inodes"
  | some i =>
      match iget i { k with disk := (k.disk.setEntries i []).setInode i ⟨type, 0, 0, 0⟩ } with
      | .ok (_, k) => .ok (i, k)
      | .blocked => .blocked
      | .panic msg => .panic msg

/-! ## Directories and files -/

/-- The slots of a directory, as `readi` gives them. -/
def readi (i : Nat) (k : Kernel) : Outcome (List Entry × Kernel) := .ok (k.disk.entries i, k)

/-- The slots after slot `off` was written. -/
def putEntry (es : List Entry) (off : Nat) (e : Entry) : List Entry :=
  if off < es.length then es.set off e else es ++ [e]

/-- `writei` can write slot `off`. -/
def writable (es : List Entry) (off : Nat) : Bool := off ≤ es.length ∧ off < MAXENTRIES

/-- `writei` of a slot.  The response says whether it was written. -/
def writei (i off : Nat) (e : Entry) (k : Kernel) : Outcome (Bool × Kernel) :=
  if writable (k.disk.entries i) off then
    .ok (true, { k with disk := k.disk.setEntries i (putEntry (k.disk.entries i) off e) })
  else .ok (false, k)

/-- `proc->cwd`. -/
def getCwd (p : Pid) (k : Kernel) : Outcome (Nat × Kernel) := .ok (k.cwd p, k)

/-- `proc->cwd = ip`. -/
def setCwd (p : Pid) (i : Nat) (k : Kernel) : Outcome (Unit × Kernel) :=
  .ok ((), { k with cwd := Function.update k.cwd p i })

/-- `filealloc`. -/
def filealloc (k : Kernel) : Outcome (Option Nat × Kernel) :=
  match (List.range NFILE).find? fun f => (k.file f).ref = 0 with
  | none => .ok (none, k)
  | some f => .ok (some f, { k with file := Function.update k.file f { k.file f with ref := 1 } })

/-- `fdalloc`. -/
def fdalloc (p : Pid) (f : Nat) (k : Kernel) : Outcome (Option Nat × Kernel) :=
  match (List.range NOFILE).find? fun fd => k.ofile p fd = none with
  | none => .ok (none, k)
  | some fd =>
      let ofile := Function.update (k.ofile p) fd (some f)
      .ok (some fd, { k with ofile := Function.update k.ofile p ofile })

/-- The part of `fileclose` under the lock of the file table: the file, if this was its last
reference. -/
def fileput (f : Nat) (k : Kernel) : Outcome (Option File × Kernel) :=
  if (k.file f).ref < 1 then .panic "fileclose"
  else if 1 < (k.file f).ref then
    .ok (none, { k with file := Function.update k.file f { k.file f with ref := (k.file f).ref - 1 } })
  else .ok (some (k.file f),
    { k with file := Function.update k.file f { k.file f with ref := 0, type := .none } })

/-- The assignments of `sys_open` to a new file. -/
def setFile (f ip : Nat) (readable writable : Bool) (k : Kernel) : Outcome (Unit × Kernel) :=
  let new := { k.file f with type := .inode, ip, off := 0, readable, writable }
  .ok ((), { k with file := Function.update k.file f new })

end Kernel

/-! ## The interface -/

/-- The steps that the calls are made of. -/
inductive Op
  | beginTrans
  | commitTrans
  | iget (i : Nat)
  | idup (i : Nat)
  | ilock (i : Nat)
  | iunlock (i : Nat)
  | iput (i : Nat)
  | load (i : Nat)
  | store (i : Nat) (n : Inode)
  | iupdate (i : Nat)
  | ialloc (type : Nat)
  | readi (i : Nat)
  | writei (i off : Nat) (e : Entry)
  | getCwd
  | setCwd (i : Nat)
  | filealloc
  | fdalloc (f : Nat)
  | fileput (f : Nat)
  | setFile (f ip : Nat) (readable writable : Bool)

/-- What a step returns. -/
def Op.Resp : Op → Type
  | .load _ => Inode
  | .ialloc _ => Nat
  | .readi _ => List Entry
  | .writei .. => Bool
  | .getCwd => Nat
  | .filealloc => Option Nat
  | .fdalloc _ => Option Nat
  | .fileput _ => Option File
  | _ => Unit

/-- The interface of the calls. -/
def layer : Interface where
  Op := Op
  Resp := Op.Resp

/-- A program of the kernel. -/
abbrev Code (α : Type) : Type := Prog layer α

/-- The effect of a step of process `p`. -/
def handle (p : Pid) : Handler layer Kernel
  | .beginTrans, k => k.beginTrans p
  | .commitTrans, k => k.commitTrans p
  | .iget i, k => k.iget i
  | .idup i, k => k.idup i
  | .ilock i, k => k.ilock i
  | .iunlock i, k => k.iunlock i
  | .iput i, k => k.iput i
  | .load i, k => k.load i
  | .store i n, k => k.store i n
  | .iupdate i, k => k.iupdate i
  | .ialloc type, k => k.ialloc type
  | .readi i, k => k.readi i
  | .writei i off e, k => k.writei i off e
  | .getCwd, k => k.getCwd p
  | .setCwd i, k => k.setCwd p i
  | .filealloc, k => k.filealloc
  | .fdalloc f, k => k.fdalloc p f
  | .fileput f, k => k.fileput f
  | .setFile f ip readable writable, k => k.setFile f ip readable writable

/-- The step calls `log_write`. -/
def Op.logs : Op → Kernel → Bool
  | .iput i, k => k.lastPut i && !k.busy i
  | .iupdate _, _ => true
  | .ialloc _, k => k.freeInode.isSome
  | .writei i off _, k => Kernel.writable (k.disk.entries i) off
  | _, _ => false

/-! ## What a step leaves alone -/

/-- The part of the state that a step may change. -/
inductive Part
  | log
  | inodes
  | files

/-- The part that a step works on. -/
def Op.part : Op → Part
  | .beginTrans | .commitTrans => .log
  | .filealloc | .fdalloc _ | .fileput _ | .setFile .. => .files
  | _ => .inodes

/-- `t` is `k`, up to one part. -/
def Part.Frame (k t : Kernel) : Part → Prop
  | .log => t = { k with logBusy := t.logBusy, inTrans := t.inTrans }
  | .inodes => t = { k with disk := t.disk, core := t.core, valid := t.valid, busy := t.busy,
                            ref := t.ref, cwd := t.cwd }
  | .files => t = { k with file := t.file, ofile := t.ofile }

section Frame

variable {p : Pid} {k t : Kernel}

theorem Part.Frame.log_eq {part : Part} (h : part.Frame k t) (hpart : part ≠ .log) :
    t.logBusy = k.logBusy ∧ t.inTrans = k.inTrans := by
  cases part with
  | log => exact absurd rfl hpart
  | _ => exact ⟨(congrArg Kernel.logBusy h :), (congrArg Kernel.inTrans h :)⟩

theorem Part.Frame.files_eq {part : Part} (h : part.Frame k t) (hpart : part ≠ .files) :
    t.file = k.file ∧ t.ofile = k.ofile := by
  cases part with
  | files => exact absurd rfl hpart
  | _ => exact ⟨(congrArg Kernel.file h :), (congrArg Kernel.ofile h :)⟩

theorem Kernel.iget_frame {i : Nat} {r : Unit} (h : k.iget i = .ok (r, t)) :
    Part.inodes.Frame k t := by
  unfold Kernel.iget at h
  split at h
  · cases h
    rfl
  split at h
  · cases h
  · cases h
    rfl

theorem Kernel.ialloc_frame {type : Nat} {r : Nat} (h : k.ialloc type = .ok (r, t)) :
    Part.inodes.Frame k t := by
  unfold Kernel.ialloc at h
  split at h
  · cases h
  split at h
  · next hget =>
    cases h
    have hframe := Kernel.iget_frame hget
    exact hframe
  · cases h
  · cases h

/-- A step changes only the part that it works on. -/
theorem handle_part {o : Op} {r : o.Resp} (h : handle p o k = .ok (r, t)) : o.part.Frame k t := by
  cases o with
  | beginTrans =>
    change k.beginTrans p = _ at h
    unfold Kernel.beginTrans at h
    split at h
    · cases h
    · cases h
      rfl
  | iget i => exact Kernel.iget_frame h
  | ialloc type => exact Kernel.ialloc_frame h
  | ilock i =>
    change k.ilock i = _ at h
    unfold Kernel.ilock at h
    split_ifs at h <;> cases h <;> rfl
  | iunlock i =>
    change k.iunlock i = _ at h
    unfold Kernel.iunlock at h
    split_ifs at h
    cases h
    rfl
  | iput i =>
    change k.iput i = _ at h
    unfold Kernel.iput at h
    split_ifs at h <;> cases h <;> rfl
  | writei i off e =>
    change k.writei i off e = _ at h
    unfold Kernel.writei at h
    split_ifs at h <;> cases h <;> rfl
  | filealloc =>
    change k.filealloc = _ at h
    unfold Kernel.filealloc at h
    split at h <;> cases h <;> rfl
  | fdalloc f =>
    change k.fdalloc p f = _ at h
    unfold Kernel.fdalloc at h
    split at h <;> cases h <;> rfl
  | fileput f =>
    change k.fileput f = _ at h
    unfold Kernel.fileput at h
    split_ifs at h <;> cases h <;> rfl
  | _ =>
    cases h
    rfl

end Frame

end Xv6Arm.Sys
