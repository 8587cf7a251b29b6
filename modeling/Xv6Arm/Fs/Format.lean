import Mathlib.Logic.Function.Basic
import Xv6Arm.Lib.Bytes

/-!
# The on-disk format

The format of `fs.h`: the super block, the inodes, the blocks of a file and the
entries of a directory, with the values that a reader of the image sees.  The
multi-byte fields are little-endian.
-/

namespace Xv6Arm.Fs

open Bytes

/-- `ROOTINO`: the number of the root inode. -/
def ROOTINO : Nat := 1

/-- `BSIZE`: the bytes of a block. -/
def BSIZE : Nat := 512

/-- `NDIRECT`: the blocks that an inode names itself. -/
def NDIRECT : Nat := 12

/-- `NINDIRECT`: the blocks that an indirect block names. -/
def NINDIRECT : Nat := 128

/-- `MAXFILE`: the most blocks of a file. -/
def MAXFILE : Nat := 140

/-- `IPB`: the inodes of a block. -/
def IPB : Nat := 8

/-- `DIRSIZ`: the most bytes of a name. -/
def DIRSIZ : Nat := 14

/-- `IBLOCK`: the block of an inode. -/
def IBLOCK (i : Nat) : Nat := i / IPB + 2

/-- `T_DIR`. -/
def T_DIR : Nat := 1

/-- `T_FILE`. -/
def T_FILE : Nat := 2

/-- A block. -/
abbrev Block := Buf 512

/-- The blocks of an image. -/
abbrev Image := Nat → Block

/-! ## The super block -/

/-- `struct superblock`. -/
structure Superblock where
  size : Nat
  nblocks : Nat
  ninodes : Nat
  nlog : Nat
deriving DecidableEq

/-- The super block of an image. -/
def superblock (img : Image) : Superblock where
  size := getLe (img 1) 0 4
  nblocks := getLe (img 1) 4 4
  ninodes := getLe (img 1) 8 4
  nlog := getLe (img 1) 12 4

/-! ## Inodes -/

/-- `struct dinode`. -/
abbrev Dinode := Buf 64

namespace Dinode

def type (d : Dinode) : Nat := getLe d 0 2
def major (d : Dinode) : Nat := getLe d 2 2
def minor (d : Dinode) : Nat := getLe d 4 2
def nlink (d : Dinode) : Nat := getLe d 6 2
def size (d : Dinode) : Nat := getLe d 8 4

/-- An element of the array `addrs`. -/
def addr (d : Dinode) (k : Nat) : Nat := getLe d (12 + 4 * k) 4

end Dinode

/-- An inode of an image. -/
def dinode (img : Image) (i : Nat) : Dinode := slice (img (IBLOCK i)) (i % IPB * 64) 64

/-- The address of block `k` of a file, or 0. -/
def bmap (img : Image) (d : Dinode) (k : Nat) : Nat :=
  if k < NDIRECT then Dinode.addr d k
  else if Dinode.addr d NDIRECT = 0 then 0
  else getLe (img (Dinode.addr d NDIRECT)) (4 * (k - NDIRECT)) 4

/-- A byte of a file.  A block that is not allocated reads as zeros. -/
def fileByte (img : Image) (d : Dinode) (o : Nat) : UInt8 :=
  if bmap img d (o / BSIZE) = 0 then 0 else byteAt (img (bmap img d (o / BSIZE))) (o % BSIZE)

/-- The bytes of a file. -/
def contents (img : Image) (i : Nat) : List UInt8 :=
  (List.range (Dinode.size (dinode img i))).map (fileByte img (dinode img i))

/-- The blocks an inode refers to: those of the file, and the indirect block. -/
def references (img : Image) (i : Nat) : List Nat :=
  ((List.range MAXFILE).map (bmap img (dinode img i))).filter (· ≠ 0) ++
    [Dinode.addr (dinode img i) NDIRECT].filter (· ≠ 0)

/-! ## Directories -/

/-- `struct dirent`. -/
abbrev Dirent := Buf 16

namespace Dirent

def inum (e : Dirent) : Nat := getLe e 0 2

/-- The name, which ends at a 0 or has `DIRSIZ` bytes. -/
def name (e : Dirent) : List UInt8 :=
  ((List.range DIRSIZ).map fun i => byteAt e (2 + i)).takeWhile (· ≠ 0)

end Dirent

/-- The directory entries in a list of bytes. -/
def dirents (bs : List UInt8) : List Dirent :=
  (List.range (bs.length / 16)).map fun j => fun i => bs.getD (16 * j + i.val) 0

/-- The entries of a directory that are in use, with their names. -/
def entries (img : Image) (i : Nat) : List (Nat × List UInt8) :=
  ((dirents (contents img i)).map fun e => (Dirent.inum e, Dirent.name e)).filter (·.1 ≠ 0)

end Xv6Arm.Fs
