import Xv6Arm.Mkfs.Finish

/-!
# The block layer of the file system

The model of the lower half of `fs.c`: the block allocator, the blocks of a file,
and reading and writing a file.  These functions stand in comments in `fs.c`; the
system calls in `sysfile.c` are written against them.

A function works on the blocks as `bread` gives them.  `log_write` changes a block
and is recorded: what a transaction logs is its effect on the disk.  The inode in
memory is an argument and a result of the functions that change it.

Numbers are those of the source, where a `uint` sum may wrap around.  A device
file is read and written by a function of the driver, which is an argument here.
-/

namespace Xv6Arm.Blocks

open Bytes Fs Mkfs

/-! ## Blocks -/

/-- The blocks of the disk, and the blocks passed to `log_write` with their contents,
oldest first. -/
structure Vol where
  disk : Image
  logged : List (Nat × Block)

/-- Code of the file system.  It may panic. -/
abbrev FsM := StateT Vol (Except String)

/-- `bread`. -/
def bread (b : Nat) : FsM Block := do
  let v ← get
  return v.disk b

/-- The blocks after `log_write` of a block with new data. -/
def Vol.write (b : Nat) (data : Block) (v : Vol) : Vol :=
  { disk := Function.update v.disk b data, logged := v.logged ++ [(b, data)] }

/-- `log_write` of the buffer of block `b`, in which the caller left `data`. -/
def logWrite (b : Nat) (data : Block) : FsM Unit := modify (Vol.write b data)

/-- `readsb`. -/
def readsb : FsM Superblock := do
  let v ← get
  return superblock v.disk

/-- `bzero`. -/
def bzero (b : Nat) : FsM Unit := do
  let _ ← bread b
  logWrite b (zeroBuf 512)

/-! ## The bitmap -/

/-- `data[bi/8] & m` with `m = 1 << (bi % 8)`. -/
def bitAt (data : Block) (bi : Nat) : Bool := (byteAt data (bi / 8)).toNat.testBit (bi % 8)

/-- `data[bi/8] |= m`. -/
def setBit (data : Block) (bi : Nat) : Block :=
  putLe data (bi / 8) 1 ((byteAt data (bi / 8)).toNat ||| 1 <<< (bi % 8))

/-- `data[bi/8] &= ~m`. -/
def clearBit (data : Block) (bi : Nat) : Block :=
  putLe data (bi / 8) 1 ((byteAt data (bi / 8)).toNat &&& (255 ^^^ 1 <<< (bi % 8)))

/-- The loop of `balloc`, for the values of `b` that are left. -/
def ballocLoop (sb : Superblock) : List Nat → FsM Nat
  | [] => throw "balloc: out of blocks"
  | b :: bs => do
    let data ← bread (BBLOCK b sb.ninodes)
    match (List.range (min BPB (sb.size - b))).find? fun bi => !bitAt data bi with
    | some bi =>
      logWrite (BBLOCK b sb.ninodes) (setBit data bi)
      bzero (b + bi)
      return b + bi
    | none => ballocLoop sb bs

/-- `balloc`. -/
def balloc : FsM Nat := do
  let sb ← readsb
  ballocLoop sb ((List.range ((sb.size + BPB - 1) / BPB)).map (· * BPB))

/-- `bfree`. -/
def bfree (b : Nat) : FsM Unit := do
  let sb ← readsb
  let data ← bread (BBLOCK b sb.ninodes)
  if !bitAt data (b % BPB) then throw "freeing free block"
  logWrite (BBLOCK b sb.ninodes) (clearBit data (b % BPB))

/-! ## Inodes -/

/-- `struct inode`, without its reference count and flags. -/
structure Inode where
  inum : Nat
  type : Nat
  major : Nat
  minor : Nat
  nlink : Nat
  size : Nat
  /-- `addrs`, which has `NDIRECT + 1` elements. -/
  addrs : Nat → Nat

/-- `ip->addrs[k] = addr`. -/
def Inode.setAddr (ip : Inode) (k addr : Nat) : Inode :=
  { ip with addrs := Function.update ip.addrs k addr }

/-- The `struct dinode` after the assignments of `iupdate`. -/
def Inode.store (ip : Inode) (d : Dinode) : Dinode :=
  (List.range (NDIRECT + 1)).foldl (fun d k => putLe d (12 + 4 * k) 4 (ip.addrs k))
    (putLe (putLe (putLe (putLe (putLe d 0 2 ip.type) 2 2 ip.major) 4 2 ip.minor) 6 2 ip.nlink)
      8 4 ip.size)

/-- The inode that `ilock` reads from its `struct dinode`. -/
def Inode.load (inum : Nat) (d : Dinode) : Inode where
  inum := inum
  type := Dinode.type d
  major := Dinode.major d
  minor := Dinode.minor d
  nlink := Dinode.nlink d
  size := Dinode.size d
  addrs := Dinode.addr d

/-- `iupdate`. -/
def iupdate (ip : Inode) : FsM Unit := do
  let data ← bread (IBLOCK ip.inum)
  let off := ip.inum % IPB * 64
  logWrite (IBLOCK ip.inum) (paste data off (ip.store (slice data off 64)))

/-- The loop of `ialloc`, for the inode numbers that are left. -/
def iallocLoop (type : Nat) : List Nat → FsM Nat
  | [] => throw "ialloc: no inodes"
  | inum :: inums => do
    let data ← bread (IBLOCK inum)
    let off := inum % IPB * 64
    if Dinode.type (slice data off 64) = 0 then do
      logWrite (IBLOCK inum) (paste data off (putLe (zeroBuf 64) 0 2 type))
      return inum
    else iallocLoop type inums

/-- `ialloc`. -/
def ialloc (type : Nat) : FsM Nat := do
  let sb ← readsb
  iallocLoop type (List.range' 1 (sb.ninodes - 1))

/-! ## The blocks of a file -/

/-- The part of `bmap` that allocates the indirect block if necessary. -/
def indirect (ip : Inode) : FsM Inode :=
  if ip.addrs NDIRECT = 0 then do
    let addr ← balloc
    return ip.setAddr NDIRECT addr
  else return ip

/-- `bmap`. -/
def bmap (ip : Inode) (bn : Nat) : FsM (Nat × Inode) :=
  if bn < NDIRECT then
    if ip.addrs bn = 0 then do
      let addr ← balloc
      return (addr, ip.setAddr bn addr)
    else return (ip.addrs bn, ip)
  else if bn - NDIRECT < NINDIRECT then do
    let ip ← indirect ip
    let data ← bread (ip.addrs NDIRECT)
    if getLe data (4 * (bn - NDIRECT)) 4 = 0 then do
      let addr ← balloc
      logWrite (ip.addrs NDIRECT) (putLe data (4 * (bn - NDIRECT)) 4 addr)
      return (addr, ip)
    else return (getLe data (4 * (bn - NDIRECT)) 4, ip)
  else throw "bmap: out of range"

/-- The round of the first loop of `itrunc` for element `i` of `addrs`. -/
def freeDirect (ip : Inode) (i : Nat) : FsM Inode :=
  if ip.addrs i ≠ 0 then do
    bfree (ip.addrs i)
    return ip.setAddr i 0
  else return ip

/-- The round of the second loop of `itrunc` for element `j` of the indirect
block. -/
def freeEntry (data : Block) (j : Nat) : FsM Unit :=
  if getLe data (4 * j) 4 ≠ 0 then bfree (getLe data (4 * j) 4) else pure ()

/-- The second part of `itrunc`: the blocks that the indirect block names, and the
indirect block. -/
def freeIndirect (ip : Inode) : FsM Inode :=
  if ip.addrs NDIRECT ≠ 0 then do
    let data ← bread (ip.addrs NDIRECT)
    forM (List.range NINDIRECT) (freeEntry data)
    bfree (ip.addrs NDIRECT)
    return ip.setAddr NDIRECT 0
  else return ip

/-- `itrunc`. -/
def itrunc (ip : Inode) : FsM Inode := do
  let ip ← (List.range NDIRECT).foldlM freeDirect ip
  let ip ← freeIndirect ip
  let ip := { ip with size := 0 }
  iupdate ip
  return ip

/-! ## Reading and writing -/

/-- `T_DEV`. -/
def T_DEV : Nat := 3

/-- `NDEV`: the number of device drivers. -/
def NDEV : Nat := 10

/-- `devsw`: the functions that read and write a device, where there are any. -/
structure Devsw where
  read : Nat → Option (Nat → FsM (Int × List UInt8))
  write : Nat → Option (List UInt8 → FsM Int)

/-- The loop of `readi`, with `n` bytes left. -/
def readLoop (ip : Inode) (off n : Nat) : FsM (List UInt8 × Inode) :=
  if n = 0 then return ([], ip)
  else do
    let (addr, ip) ← bmap ip (off / BSIZE)
    let data ← bread addr
    let m := min n (BSIZE - off % BSIZE)
    let bytes := (List.range m).map fun i => byteAt data (off % BSIZE + i)
    let (rest, ip) ← readLoop ip (off + m) (n - m)
    return (bytes ++ rest, ip)
termination_by n
decreasing_by
  have : off % BSIZE < BSIZE := Nat.mod_lt _ (by decide)
  omega

/-- `readi`: its value, the bytes it copied, and the inode. -/
def readi (devsw : Devsw) (ip : Inode) (off n : Nat) : FsM (Int × List UInt8 × Inode) :=
  if ip.type = T_DEV then
    if NDEV ≤ ip.major then return (-1, [], ip)
    else
      match devsw.read ip.major with
      | none => return (-1, [], ip)
      | some read => do
        let (r, bytes) ← read n
        return (r, bytes, ip)
  else if off > ip.size ∨ (off + n) % 2 ^ 32 < off then return (-1, [], ip)
  else do
    let n := if (off + n) % 2 ^ 32 > ip.size then ip.size - off else n
    let (bytes, ip) ← readLoop ip off n
    return (n, bytes, ip)

/-- The loop of `writei`, with the bytes `src` left: the inode and the offset at
its end. -/
def writeLoop (ip : Inode) (off : Nat) (src : List UInt8) : FsM (Inode × Nat) :=
  if src = [] then return (ip, off)
  else do
    let (addr, ip) ← bmap ip (off / BSIZE)
    let data ← bread addr
    let m := min src.length (BSIZE - off % BSIZE)
    logWrite addr (blit data (off % BSIZE) (src.take m))
    writeLoop ip (off + m) (src.drop m)
termination_by src.length
decreasing_by
  have : off % BSIZE < BSIZE := Nat.mod_lt _ (by decide)
  have : 0 < src.length := List.length_pos_of_ne_nil ‹_›
  simp only [List.length_drop]
  omega

/-- `writei`: its value and the inode. -/
def writei (devsw : Devsw) (ip : Inode) (src : List UInt8) (off : Nat) : FsM (Int × Inode) :=
  if ip.type = T_DEV then
    if NDEV ≤ ip.major then return (-1, ip)
    else
      match devsw.write ip.major with
      | none => return (-1, ip)
      | some write => do
        let r ← write src
        return (r, ip)
  else if off > ip.size ∨ (off + src.length) % 2 ^ 32 < off then return (-1, ip)
  else if (off + src.length) % 2 ^ 32 > MAXFILE * BSIZE then return (-1, ip)
  else do
    let (ip, off) ← writeLoop ip off src
    if 0 < src.length ∧ off > ip.size then do
      let ip := { ip with size := off }
      iupdate ip
      return (src.length, ip)
    else return (src.length, ip)

/-! ## The inode cache -/

/-- The blocks, and the inodes in the cache that are `I_VALID`. -/
structure Core where
  vol : Vol
  icache : Nat → Option Inode

/-- Code that uses the inode cache. -/
abbrev CoreM := StateT Core (Except String)

/-- Code that works on the blocks. -/
def onVol {α : Type} (x : FsM α) : CoreM α := fun s =>
  x.run s.vol >>= fun r => pure (r.1, { s with vol := r.2 })

/-- The copy of an inode in the cache. -/
def setCopy (inum : Nat) (ip : Option Inode) : CoreM Unit :=
  modify fun s => { s with icache := Function.update s.icache inum ip }

/-- The inode, as `ilock` reads it if it is not `I_VALID`. -/
def readInode (inum : Nat) : FsM Inode := do
  let data ← bread (IBLOCK inum)
  return Inode.load inum (slice data (inum % IPB * 64) 64)

/-- `ilock` of an inode that is not `I_BUSY`. -/
def ilock (inum : Nat) : CoreM Inode := do
  let s ← get
  match s.icache inum with
  | some ip => return ip
  | none => do
    let ip ← onVol (readInode inum)
    setCopy inum (some ip)
    if ip.type = 0 then throw "ilock: no type"
    return ip

/-- The part of `iput` that frees an inode. -/
def ifree (ip : Inode) : FsM Unit := do
  let ip ← itrunc ip
  iupdate { ip with type := 0 }

/-- `iput` of the last reference to an inode. -/
def iput (inum : Nat) : CoreM Unit := do
  let s ← get
  match s.icache inum with
  | some ip => if ip.nlink = 0 then onVol (ifree ip) else pure ()
  | none => pure ()
  setCopy inum none

/-! ## Operations

The operations that the system calls make of these functions, each on an inode
that it locks. -/

/-- An operation. -/
inductive Op
  /-- `readi`. -/
  | read (inum off n : Nat)
  /-- `writei`. -/
  | write (inum : Nat) (src : List UInt8) (off : Nat)
  /-- `ialloc`. -/
  | alloc (type : Nat)
  /-- `iupdate` with a new `major`, `minor` and `nlink`, as in `create`, `sys_link` and
  `sys_unlink`. -/
  | update (inum major minor nlink : Nat)
  /-- `iunlockput` of the last reference. -/
  | put (inum : Nat)
  /-- `iget` takes the slot of an inode without references for another inode. -/
  | recycle (inum : Nat)

/-- What an operation returns, and the bytes it read. -/
abbrev Result := Int × List UInt8

/-- An operation. -/
def Op.run (devsw : Devsw) : Op → CoreM Result
  | .read inum off n => do
    let ip ← ilock inum
    let (r, bytes, ip) ← onVol (readi devsw ip off n)
    setCopy inum (some ip)
    return (r, bytes)
  | .write inum src off => do
    let ip ← ilock inum
    let (r, ip) ← onVol (writei devsw ip src off)
    setCopy inum (some ip)
    return (r, [])
  | .alloc type => do
    let inum ← onVol (ialloc type)
    return (inum, [])
  | .update inum major minor nlink => do
    let ip ← ilock inum
    let ip := { ip with major := major, minor := minor, nlink := nlink }
    onVol (iupdate ip)
    setCopy inum (some ip)
    return (0, [])
  | .put inum => do
    let _ ← ilock inum
    iput inum
    return (0, [])
  | .recycle inum => do
    setCopy inum none
    return (0, [])

end Xv6Arm.Blocks
