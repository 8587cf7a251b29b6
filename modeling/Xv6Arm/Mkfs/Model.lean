import Xv6Arm.Fs.Format

/-!
# mkfs

The model of `mkfs.c`.  The host's file system is left out: the image file can be
written, and the input files can be opened and read.  An input file is what the
calls of `read` return for it, which may be fewer bytes than asked for.  The
functions `xshort` and `xint` make the fields of the image little-endian on every
host, so a field is written by `putLe` and read by `getLe`.
-/

namespace Xv6Arm.Mkfs

open Bytes Fs

/-- Why `mkfs` does not exit with 0. -/
inductive Failure
  /-- An assertion fails. -/
  | assert
  /-- A read or write of the image fails, and `mkfs` exits with 1. -/
  | exit
deriving DecidableEq

def nblocks : Nat := 985
def nlog : Nat := 10
def ninodes : Nat := 200
def size : Nat := 1024

/-- The image file, and the counters. -/
structure State where
  /-- Its sectors. -/
  img : Image
  /-- The number of its sectors. -/
  len : Nat
  freeblock : Nat
  usedblocks : Nat
  freeinode : Nat

/-! ## Sectors and inodes -/

/-- `wsect`.  A write past the end makes the file longer. -/
def wsect (sec : Nat) (buf : Block) (s : State) : State :=
  { s with img := Function.update s.img sec buf, len := max s.len (sec + 1) }

/-- `rsect`.  A read past the end fails. -/
def rsect (sec : Nat) (s : State) : Except Failure Block :=
  if sec < s.len then .ok (s.img sec) else .error .exit

/-- `i2b`. -/
def i2b (inum : Nat) : Nat := inum / IPB + 2

/-- `winode`. -/
def winode (inum : Nat) (ip : Dinode) (s : State) : Except Failure State := do
  let buf ← rsect (i2b inum) s
  return wsect (i2b inum) (paste buf (inum % IPB * 64) ip) s

/-- `rinode`. -/
def rinode (inum : Nat) (s : State) : Except Failure Dinode := do
  let buf ← rsect (i2b inum) s
  return slice buf (inum % IPB * 64) 64

/-- The assignments to the fields of a `struct dinode`. -/
def setType (d : Dinode) (v : Nat) : Dinode := putLe d 0 2 v
def setNlink (d : Dinode) (v : Nat) : Dinode := putLe d 6 2 v
def setSize (d : Dinode) (v : Nat) : Dinode := putLe d 8 4 v
def setAddr (d : Dinode) (k v : Nat) : Dinode := putLe d (12 + 4 * k) 4 v

/-- `ialloc`. -/
def ialloc (type : Nat) (s : State) : Except Failure (Nat × State) := do
  let inum := s.freeinode
  let din := setSize (setNlink (setType (zeroBuf 64) type) 1) 0
  let s ← winode inum din { s with freeinode := s.freeinode + 1 }
  return (inum, s)

/-! ## iappend -/

/-- `freeblock++` and `usedblocks++`. -/
def State.take (s : State) : State :=
  { s with freeblock := s.freeblock + 1, usedblocks := s.usedblocks + 1 }

/-- The block address in a round of `iappend`, with the inode and the state after
the allocations it needs. -/
def blockFor (din : Dinode) (fbn : Nat) (s : State) : Except Failure (Nat × Dinode × State) :=
  if fbn < NDIRECT then
    if Dinode.addr din fbn = 0 then
      let din := setAddr din fbn s.freeblock
      .ok (Dinode.addr din fbn, din, s.take)
    else .ok (Dinode.addr din fbn, din, s)
  else do
    let (din, s) :=
      if Dinode.addr din NDIRECT = 0 then (setAddr din NDIRECT s.freeblock, s.take) else (din, s)
    let indirect ← rsect (Dinode.addr din NDIRECT) s
    if getLe indirect (4 * (fbn - NDIRECT)) 4 = 0 then
      let indirect := putLe indirect (4 * (fbn - NDIRECT)) 4 s.freeblock
      return (getLe indirect (4 * (fbn - NDIRECT)) 4, din,
        wsect (Dinode.addr din NDIRECT) indirect s.take)
    else return (getLe indirect (4 * (fbn - NDIRECT)) 4, din, s)

/-- The loop of `iappend`. -/
def appendLoop (din : Dinode) (off : Nat) (p : List UInt8) (s : State) :
    Except Failure (Dinode × Nat × State) :=
  match p with
  | [] => .ok (din, off, s)
  | b :: q =>
      if MAXFILE ≤ off / 512 then .error .assert
      else do
        let (x, din, s) ← blockFor din (off / 512) s
        let n1 := min (q.length + 1) ((off / 512 + 1) * 512 - off)
        let buf ← rsect x s
        let s := wsect x (blit buf (off - off / 512 * 512) ((b :: q).take n1)) s
        appendLoop din (off + n1) ((b :: q).drop n1) s
termination_by p.length
decreasing_by
  simp only [List.length_drop, List.length_cons]
  omega

/-- `iappend`. -/
def iappend (inum : Nat) (p : List UInt8) (s : State) : Except Failure State := do
  let din ← rinode inum s
  let (din, off, s) ← appendLoop din (Dinode.size din) p s
  winode inum (setSize din off) s

/-! ## balloc -/

/-- The bitmap block in which the bits of the first blocks are set. -/
def bitmap (used : Nat) : Block :=
  (List.range used).foldl
    (fun buf i => putLe buf (i / 8) 1 ((byteAt buf (i / 8)).toNat ||| 1 <<< (i % 8))) (zeroBuf 512)

/-- `balloc`. -/
def balloc (used : Nat) (s : State) : Except Failure State :=
  if used < 512 * 8 then .ok (wsect (ninodes / IPB + 3) (bitmap used) s) else .error .assert

/-! ## main -/

/-- An input file. -/
structure Input where
  /-- The argument of `mkfs` that names it. -/
  name : List UInt8
  /-- What the calls of `read` return, until one returns 0. -/
  chunks : List (List UInt8)
  name_ne_zero : ∀ c ∈ name, c ≠ 0
  chunk_length : ∀ c ∈ chunks, 0 < c.length ∧ c.length ≤ 512

/-- The bytes of an input file. -/
def Input.bytes (f : Input) : List UInt8 := f.chunks.flatten

/-- The name without a leading `_`. -/
def Input.target (f : Input) : List UInt8 :=
  match f.name with
  | c :: cs => if c = 95 then cs else c :: cs
  | [] => []

/-- A directory entry, as the bytes that `iappend` gets. -/
def dirent (inum : Nat) (name : List UInt8) : List UInt8 :=
  List.ofFn (blit (putLe (zeroBuf 16) 0 2 inum) 2 (name.take DIRSIZ))

/-- The round of `main` for an input file. -/
def addFile (rootino : Nat) (s : State) (f : Input) : Except Failure State :=
  if 47 ∈ f.name then .error .assert
  else do
    let (inum, s) ← ialloc T_FILE s
    let s ← iappend rootino (dirent inum f.target) s
    f.chunks.foldlM (fun s buf => iappend inum buf s) s

/-- The sectors before the first data block. -/
def usedBefore : Nat := ninodes / IPB + 3 + (size / (512 * 8) + 1)

/-- The super block that `main` writes. -/
def superBlock : Block :=
  putLe (putLe (putLe (putLe (zeroBuf 512) 0 4 size) 4 4 nblocks) 8 4 ninodes) 12 4 nlog

/-- The image of zeros. -/
def zeroed : State :=
  (List.range (nblocks + usedBefore + nlog)).foldl (fun s i => wsect i (zeroBuf 512) s)
    { img := fun _ => zeroBuf 512, len := 0, freeblock := usedBefore, usedblocks := usedBefore,
      freeinode := 1 }

/-- The end of `main`: the size of the root directory, and the bitmap. -/
def finish (rootino : Nat) (s : State) : Except Failure State := do
  let din ← rinode rootino s
  let s ← winode rootino (setSize din ((Dinode.size din / BSIZE + 1) * BSIZE)) s
  balloc s.usedblocks s

/-- `main`: the image when `mkfs` exits with 0. -/
def mkfs (files : List Input) : Except Failure State :=
  if nblocks + usedBefore + nlog ≠ size then .error .assert
  else do
    let (rootino, s) ← ialloc T_DIR (wsect 1 superBlock zeroed)
    if rootino ≠ ROOTINO then .error .assert
    else do
      let s ← iappend rootino (dirent rootino [46]) s
      let s ← iappend rootino (dirent rootino [46, 46]) s
      let s ← files.foldlM (addFile rootino) s
      finish rootino s

end Xv6Arm.Mkfs
