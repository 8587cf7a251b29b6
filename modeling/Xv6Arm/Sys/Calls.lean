import Xv6Arm.Sys.Inode

/-!
# The file system calls

The calls of `sysfile.c` that read and change the directories, with the functions
of `fs.c` that they share: looking up a name, adding a name, and following a path.
An argument that `argstr` or `argint` cannot fetch is `none`.
-/

namespace Xv6Arm.Sys

open Fs Programs

/-! ## Single steps -/

def beginTrans : Code Unit := @Prog.call layer .beginTrans
def commitTrans : Code Unit := @Prog.call layer .commitTrans
def iget (i : Nat) : Code Unit := @Prog.call layer (.iget i)
def idup (i : Nat) : Code Unit := @Prog.call layer (.idup i)
def ilock (i : Nat) : Code Unit := @Prog.call layer (.ilock i)
def iunlock (i : Nat) : Code Unit := @Prog.call layer (.iunlock i)
def iput (i : Nat) : Code Unit := @Prog.call layer (.iput i)
def load (i : Nat) : Code Inode := @Prog.call layer (.load i)
def store (i : Nat) (n : Inode) : Code Unit := @Prog.call layer (.store i n)
def iupdate (i : Nat) : Code Unit := @Prog.call layer (.iupdate i)
def ialloc (type : Nat) : Code Nat := @Prog.call layer (.ialloc type)
def readi (i : Nat) : Code (List Entry) := @Prog.call layer (.readi i)
def writei (i off : Nat) (e : Entry) : Code Bool := @Prog.call layer (.writei i off e)
def getCwd : Code Nat := @Prog.call layer .getCwd
def setCwd (i : Nat) : Code Unit := @Prog.call layer (.setCwd i)
def filealloc : Code (Option Nat) := @Prog.call layer .filealloc
def fdalloc (f : Nat) : Code (Option Nat) := @Prog.call layer (.fdalloc f)
def fileput (f : Nat) : Code (Option File) := @Prog.call layer (.fileput f)
def setFile (f ip : Nat) (readable writable : Bool) : Code Unit :=
  @Prog.call layer (.setFile f ip readable writable)

/-- Assigns the fields of a locked inode and calls `iupdate`. -/
def assign (i : Nat) (n : Inode) : Code Unit := do
  store i n
  iupdate i

/-- `iunlockput`. -/
def iunlockput (i : Nat) : Code Unit := do
  iunlock i
  iput i

/-! ## Directories -/

/-- The slot that the loop of `dirlookup` stops at. -/
def slotOf (es : List Entry) (name : Name) : Nat :=
  es.findIdx fun e => e.inum ≠ 0 ∧ e.name = name

/-- `dirlookup`: the inode of a name and the slot of its entry. -/
def dirlookup (dp : Nat) (name : Name) : Code (Option (Nat × Nat)) := do
  let d ← load dp
  if d.type ≠ T_DIR then .panic "dirlookup not DIR"
  else do
    let es ← readi dp
    match es[slotOf es name]? with
    | none => return none
    | some e => do
        iget e.inum
        return some (e.inum, slotOf es name)

/-- `dirlink`.  The response is whether the name was added. -/
def dirlink (dp : Nat) (name : Name) (inum : Nat) : Code Bool := do
  match ← dirlookup dp name with
  | some (ip, _) => do
      iput ip
      return false
  | none => do
      let es ← readi dp
      if ← writei dp (es.findIdx fun e => e.inum = 0) ⟨inum, name⟩ then return true
      else .panic "dirlink"

/-! ## Paths -/

/-- The loop of `namex`. -/
def namexLoop (parent : Bool) : List Name → Name → Nat → Code (Option (Nat × Name))
  | [], name, ip =>
      if parent then do
        iput ip
        return none
      else return some (ip, name)
  | name :: rest, _, ip => do
      ilock ip
      let n ← load ip
      if n.type ≠ T_DIR then do
        iunlockput ip
        return none
      else if parent ∧ rest = [] then do
        iunlock ip
        return some (ip, name)
      else do
        match ← dirlookup ip name with
        | none => do
            iunlockput ip
            return none
        | some (next, _) => do
            iunlockput ip
            namexLoop parent rest name next

/-- `namex`: the inode of a path, or the inode of its parent and the last element. -/
def namex (parent : Bool) (path : List UInt8) : Code (Option (Nat × Name)) :=
  if path.head? = some 47 then do
    iget ROOTINO
    namexLoop parent (elements path) [] ROOTINO
  else do
    let cwd ← getCwd
    idup cwd
    namexLoop parent (elements path) [] cwd

/-- `namei`. -/
def namei (path : List UInt8) : Code (Option Nat) := do
  let r ← namex false path
  return r.map Prod.fst

/-- `nameiparent`. -/
def nameiparent (path : List UInt8) : Code (Option (Nat × Name)) := namex true path

/-! ## Links -/

/-- The exit `bad` of `sys_link`. -/
def linkBad (ip : Nat) : Code Int := do
  ilock ip
  let n ← load ip
  assign ip { n with nlink := n.nlink - 1 }
  iunlockput ip
  commitTrans
  return -1

/-- The part of `sys_link` after the arguments.  All inodes are on one device. -/
def link (old new : List UInt8) : Code Int := do
  match ← namei old with
  | none => return -1
  | some ip => do
      beginTrans
      ilock ip
      let n ← load ip
      if n.type = T_DIR then do
        iunlockput ip
        commitTrans
        return -1
      else do
        assign ip { n with nlink := n.nlink + 1 }
        iunlock ip
        match ← nameiparent new with
        | none => linkBad ip
        | some (dp, name) => do
            ilock dp
            if ← dirlink dp name ip then do
              iunlockput dp
              iput ip
              commitTrans
              return 0
            else do
              iunlockput dp
              linkBad ip

/-- `sys_link`. -/
def sysLink : Option (List UInt8) → Option (List UInt8) → Code Int
  | some old, some new => link old new
  | _, _ => return -1

/-- `isdirempty`: the slots after `.` and `..` are empty. -/
def isdirempty (dp : Nat) : Code Bool := do
  let es ← readi dp
  return (es.drop 2).all fun e => e.inum = 0

/-- The test of `sys_unlink`: the inode is not a directory that has entries. -/
def removable (ip : Nat) (n : Inode) : Code Bool :=
  if n.type = T_DIR then isdirempty ip else return true

/-- The exit `bad` of `sys_unlink`. -/
def unlinkBad (dp : Nat) : Code Int := do
  iunlockput dp
  commitTrans
  return -1

/-- The link of `..` to the parent goes with a directory. -/
def removeDotdot (dp : Nat) (n : Inode) : Code Unit :=
  if n.type = T_DIR then do
    let d ← load dp
    assign dp { d with nlink := d.nlink - 1 }
  else return ()

/-- The end of `sys_unlink`: clears slot `off` of `dp`, the entry of `ip`. -/
def removeEntry (dp off ip : Nat) (n : Inode) : Code Int := do
  if ← writei dp off ⟨0, []⟩ then do
    removeDotdot dp n
    iunlockput dp
    let n ← load ip
    assign ip { n with nlink := n.nlink - 1 }
    iunlockput ip
    commitTrans
    return 0
  else .panic "unlink: writei"

/-- The part of `sys_unlink` after the arguments. -/
def unlink (path : List UInt8) : Code Int := do
  match ← nameiparent path with
  | none => return -1
  | some (dp, name) => do
      beginTrans
      ilock dp
      if name = dot ∨ name = dotdot then unlinkBad dp
      else do
        match ← dirlookup dp name with
        | none => unlinkBad dp
        | some (ip, off) => do
            ilock ip
            let n ← load ip
            if n.nlink < 1 then .panic "unlink: nlink < 1"
            else do
              if ← removable ip n then removeEntry dp off ip n
              else do
                iunlockput ip
                unlinkBad dp

/-- `sys_unlink`. -/
def sysUnlink : Option (List UInt8) → Code Int
  | some path => unlink path
  | none => return -1

/-! ## New inodes -/

/-- The entries `.` and `..` of a new directory. -/
def createDots (ip dp type : Nat) : Code Unit :=
  if type = T_DIR then do
    let d ← load dp
    assign dp { d with nlink := d.nlink + 1 }
    if ← dirlink ip dot ip then
      if ← dirlink ip dotdot dp then return () else .panic "create dots"
    else .panic "create dots"
  else return ()

/-- The part of `create` that makes a new inode in the directory `dp`. -/
def createNew (dp : Nat) (name : Name) (type : Nat) (major minor : Int) : Code (Option Nat) := do
  let ip ← ialloc type
  ilock ip
  let n ← load ip
  assign ip { n with major, minor, nlink := 1 }
  createDots ip dp type
  if ← dirlink dp name ip then do
    iunlockput dp
    return some ip
  else .panic "create: dirlink"

/-- `create`: a locked inode. -/
def create (path : List UInt8) (type : Nat) (major minor : Int) : Code (Option Nat) := do
  match ← nameiparent path with
  | none => return none
  | some (dp, name) => do
      ilock dp
      match ← dirlookup dp name with
      | some (ip, _) => do
          iunlockput dp
          ilock ip
          let n ← load ip
          if type = T_FILE ∧ n.type = T_FILE then return some ip
          else do
            iunlockput ip
            return none
      | none => createNew dp name type major minor

/-! ## Opening -/

/-- `O_RDONLY`. -/
def O_RDONLY : Nat := 0

/-- `O_WRONLY`. -/
def O_WRONLY : Nat := 1

/-- `O_RDWR`. -/
def O_RDWR : Nat := 2

/-- `O_CREATE`. -/
def O_CREATE : Nat := 0x200

/-- `fileclose`.  A pipe is not an inode. -/
def fileclose (f : Nat) : Code Unit := do
  match ← fileput f with
  | none => return ()
  | some ff =>
      if ff.type = .inode then do
        beginTrans
        iput ff.ip
        commitTrans
      else return ()

/-- The end of `sys_open`: a descriptor for the locked inode `ip`. -/
def openInode (ip omode : Nat) : Code Int := do
  match ← filealloc with
  | none => do
      iunlockput ip
      return -1
  | some f => do
      match ← fdalloc f with
      | none => do
          fileclose f
          iunlockput ip
          return -1
      | some fd => do
          iunlock ip
          setFile f ip (omode &&& O_WRONLY = 0) (omode &&& O_WRONLY ≠ 0 ∨ omode &&& O_RDWR ≠ 0)
          return fd

/-- `sys_open`. -/
def sysOpen : Option (List UInt8) → Option Nat → Code Int
  | some path, some omode =>
      if omode &&& O_CREATE ≠ 0 then do
        beginTrans
        let r ← create path T_FILE 0 0
        commitTrans
        match r with
        | none => return -1
        | some ip => openInode ip omode
      else do
        match ← namei path with
        | none => return -1
        | some ip => do
            ilock ip
            let n ← load ip
            if n.type = T_DIR ∧ omode ≠ O_RDONLY then do
              iunlockput ip
              return -1
            else openInode ip omode
  | _, _ => return -1

/-- The end of `sys_mkdir` and `sys_mknod`. -/
def created : Option Nat → Code Int
  | none => do
      commitTrans
      return -1
  | some ip => do
      iunlockput ip
      commitTrans
      return 0

/-- `sys_mkdir`. -/
def sysMkdir (path : Option (List UInt8)) : Code Int := do
  beginTrans
  match path with
  | none => created none
  | some path => do
      let r ← create path T_DIR 0 0
      created r

/-- `sys_mknod`. -/
def sysMknod (path : Option (List UInt8)) (major minor : Option Int) : Code Int := do
  beginTrans
  match path, major, minor with
  | some path, some major, some minor => do
      let r ← create path T_DEV major minor
      created r
  | _, _, _ => created none

/-- `sys_chdir`. -/
def sysChdir : Option (List UInt8) → Code Int
  | none => return -1
  | some path => do
      match ← namei path with
      | none => return -1
      | some ip => do
          ilock ip
          let n ← load ip
          if n.type ≠ T_DIR then do
            iunlockput ip
            return -1
          else do
            iunlock ip
            let cwd ← getCwd
            iput cwd
            setCwd ip
            return 0

/-- A call with its arguments. -/
inductive Call
  | link (old new : Option (List UInt8))
  | unlink (path : Option (List UInt8))
  | openFile (path : Option (List UInt8)) (omode : Option Nat)
  | mkdir (path : Option (List UInt8))
  | mknod (path : Option (List UInt8)) (major minor : Option Int)
  | chdir (path : Option (List UInt8))
deriving DecidableEq

/-- The program of a call. -/
def Call.body : Call → Code Int
  | .link old new => sysLink old new
  | .unlink path => sysUnlink path
  | .openFile path omode => sysOpen path omode
  | .mkdir path => sysMkdir path
  | .mknod path major minor => sysMknod path major minor
  | .chdir path => sysChdir path

end Xv6Arm.Sys
