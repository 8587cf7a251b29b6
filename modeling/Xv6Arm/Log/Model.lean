import Mathlib.Logic.Function.Basic
import Xv6Arm.Lib.Bytes
import Xv6Arm.Lib.RedoLog

/-!
# The log

The model of `log.c`, over a disk of sectors and a buffer cache.

The disk is written one sector at a time.  `writes` records the sector writes
since the history starts, oldest first; the code does not read it.  A crash
keeps a prefix of these writes and loses everything in memory: `boot` is the
machine that then starts with a disk.

The bodies of `bread` and `bwrite` are commented out in `bio.c`.  Here `bread`
gives the cached contents of a sector, or those on the disk, and `bwrite` writes
one sector at once.  To make room a `bread` may drop any buffers from the cache,
as the parameter `recycle` says, but never one flagged `B_DIRTY`.  A buffer is
used by one process at a time, so `brelse` has nothing to do.
-/

namespace Xv6Arm.Log

open Bytes RedoLog

/-! ## The machine -/

/-- `BSIZE`: the bytes of a block. -/
def BSIZE : Nat := 512

/-- `LOGSIZE`: the most data sectors in the log. -/
def LOGSIZE : Nat := 10

/-- A sector number. -/
abbrev Sector := BitVec 32

/-- The contents of a sector. -/
abbrev Block := Buf 512

/-- The sectors of `ROOTDEV`. -/
abbrev Disk := Sector → Block

/-- A valid buffer of the cache. -/
structure Buffer where
  /-- Its data. -/
  data : Block
  /-- `B_DIRTY`. -/
  dirty : Bool

/-- The buffers of the cache by sector. -/
abbrev Cache := Sector → Option Buffer

/-- `struct logheader`.  The array has `LOGSIZE` elements. -/
structure LogHeader where
  /-- The number of logged sectors. -/
  n : Int
  /-- Their numbers. -/
  sector : Nat → Sector

/-- `struct log`, without its lock and device. -/
structure LogState where
  /-- The sector of the header. -/
  start : Sector
  /-- The number of sectors of the log. -/
  size : Int
  /-- A transaction is active. -/
  busy : Bool
  /-- The logged sectors. -/
  lh : LogHeader

/-- The disk, the cache and the log. -/
structure Machine where
  /-- The disk. -/
  disk : Disk
  /-- The buffer cache. -/
  cache : Cache
  /-- The variable `log`. -/
  log : LogState
  /-- The sector writes since the history starts. -/
  writes : List (Sector × Block)

/-- Why a computation does not go on. -/
inductive Stop
  /-- The kernel calls `panic`. -/
  | panic (msg : String)
  /-- An index is outside of `sector[LOGSIZE]`. -/
  | outOfBounds
  /-- `begin_trans` sleeps, and nobody is there to end the transaction. -/
  | asleep
deriving DecidableEq

/-- Kernel code that runs on the machine. -/
abbrev Kernel := StateT Machine (Except Stop)

/-- The machine that boots from a disk. -/
def boot (d : Disk) : Machine where
  disk := d
  cache := fun _ => none
  log := { start := 0, size := 0, busy := false, lh := { n := 0, sector := fun _ => 0 } }
  writes := []

/-! ## The buffer cache -/

/-- The contents of a sector as the kernel sees them. -/
def Machine.block (m : Machine) (s : Sector) : Block :=
  match m.cache s with
  | some b => b.data
  | none => m.disk s

/-- Which buffers a `bread` of a sector drops, given the cache. -/
abbrev Recycle := Cache → Sector → Sector → Bool

/-- The machine after sector `s` is brought into the cache. -/
def Machine.fetch (recycle : Recycle) (s : Sector) (m : Machine) : Machine :=
  match m.cache s with
  | some _ => m
  | none =>
      { m with
        cache := fun t =>
          if t = s then some { data := m.disk s, dirty := false }
          else
            match m.cache t with
            | some b => if recycle m.cache s t && !b.dirty then none else some b
            | none => none }

/-- The machine after a sector is written. -/
def Machine.write (s : Sector) (b : Block) (m : Machine) : Machine :=
  { m with
    disk := Function.update m.disk s b
    cache := Function.update m.cache s (some { data := b, dirty := false })
    writes := m.writes ++ [(s, b)] }

/-- `bread(ROOTDEV, s)`. -/
def bread (recycle : Recycle) (s : Sector) : Kernel Block :=
  modifyGet fun m => (m.block s, m.fetch recycle s)

/-- `bwrite` of the buffer of sector `s`, with the data `b`. -/
def bwrite (s : Sector) (b : Block) : Kernel Unit := modify (Machine.write s b)

/-! ## The header -/

/-- `lh->n` of a header block. -/
def headN (b : Block) : Int := (BitVec.ofNat 32 (getLe b 0 4)).toInt

/-- `lh->sector[i]` of a header block. -/
def headSector (b : Block) (i : Nat) : Sector := BitVec.ofNat 32 (getLe b (4 + 4 * i) 4)

/-- A header block after the assignments of `write_head`. -/
def putHead (lh : LogHeader) (b : Block) : Block :=
  (List.range lh.n.toNat).foldl (fun b i => putLe b (4 + 4 * i) 4 (lh.sector i).toNat)
    (putLe b 0 4 (BitVec.ofInt 32 lh.n).toNat)

/-- An index of `log.lh.sector` is checked. -/
def checkIndex (i : Nat) : Kernel Unit := if i < LOGSIZE then pure () else throw .outOfBounds

/-- The machine with another `log.lh`. -/
def Machine.setLh (lh : LogHeader) (m : Machine) : Machine :=
  { m with log := { m.log with lh := lh } }

/-- `log.lh.n = n`. -/
def setN (n : Int) : Kernel Unit :=
  modify fun m => m.setLh { n := n, sector := m.log.lh.sector }

/-- `log.lh.sector[i] = s`. -/
def setSector (i : Nat) (s : Sector) : Kernel Unit := do
  checkIndex i
  modify fun m => m.setLh { n := m.log.lh.n, sector := Function.update m.log.lh.sector i s }

/-- `read_head`. -/
def readHead (recycle : Recycle) : Kernel Unit := do
  let m ← get
  let buf ← bread recycle m.log.start
  setN (headN buf)
  (List.range (headN buf).toNat).forM fun i => setSector i (headSector buf i)

/-- `write_head`.  The last round of its loop reads `sector[n - 1]`. -/
def writeHead (recycle : Recycle) : Kernel Unit := do
  let m ← get
  let buf ← bread recycle m.log.start
  checkIndex (m.log.lh.n.toNat - 1)
  bwrite m.log.start (putHead m.log.lh buf)

/-- The sector of log block `i`, `log.start + i + 1`. -/
def LogState.slot (log : LogState) (i : Nat) : Sector := log.start + BitVec.ofNat 32 (i + 1)

/-- `install_trans`. -/
def installTrans (recycle : Recycle) : Kernel Unit := do
  let m ← get
  (List.range m.log.lh.n.toNat).forM fun tail => do
    checkIndex tail
    let lbuf ← bread recycle (m.log.slot tail)
    let _ ← bread recycle (m.log.lh.sector tail)
    bwrite (m.log.lh.sector tail) lbuf

/-- `recover_from_log`. -/
def recoverFromLog (recycle : Recycle) : Kernel Unit := do
  readHead recycle
  installTrans recycle
  setN 0
  writeHead recycle

/-- `sb.size` of a super block. -/
def sbSize (b : Block) : BitVec 32 := BitVec.ofNat 32 (getLe b 0 4)

/-- `sb.nlog` of a super block. -/
def sbNlog (b : Block) : BitVec 32 := BitVec.ofNat 32 (getLe b 12 4)

/-- The machine after `initlog` set `log.start` and `log.size` from a super
block. -/
def Machine.placeLog (sb : Block) (m : Machine) : Machine :=
  { m with log := { m.log with start := sbSize sb - sbNlog sb, size := (sbNlog sb).toInt } }

/-- `initlog`. -/
def initlog (recycle : Recycle) : Kernel Unit := do
  if 4 + 4 * LOGSIZE ≥ BSIZE then throw (.panic "initlog: too big logheader")
  let sb ← bread recycle 1
  modify (Machine.placeLog sb)
  recoverFromLog recycle

/-! ## Transactions -/

/-- `log.busy = busy`. -/
def setBusy (busy : Bool) : Kernel Unit :=
  modify fun m => { m with log := { m.log with busy := busy } }

/-- `begin_trans`. -/
def beginTrans : Kernel Unit := do
  let m ← get
  if m.log.busy then throw .asleep
  setBusy true

/-- `commit_trans`. -/
def commitTrans (recycle : Recycle) : Kernel Unit := do
  let m ← get
  if 0 < m.log.lh.n then
    writeHead recycle
    installTrans recycle
    setN 0
    writeHead recycle
  setBusy false

/-- The first `i < log.lh.n` with `log.lh.sector[i] == s`, or `log.lh.n`. -/
def LogHeader.index (lh : LogHeader) (s : Sector) : Nat :=
  ((List.range lh.n.toNat).map lh.sector).idxOf s

/-- The machine with the buffer of sector `s` flagged `B_DIRTY`. -/
def Machine.setDirty (s : Sector) (data : Block) (m : Machine) : Machine :=
  { m with cache := Function.update m.cache s (some { data := data, dirty := true }) }

/-- `log_write` of the buffer of sector `s`, in which the caller left `data`. -/
def logWrite (recycle : Recycle) (s : Sector) (data : Block) : Kernel Unit := do
  let m ← get
  if m.log.lh.n ≥ LOGSIZE ∨ m.log.lh.n ≥ m.log.size - 1 then
    throw (.panic "too big a transaction")
  if !m.log.busy then throw (.panic "write outside of trans")
  let i := m.log.lh.index s
  setSector i s
  let _ ← bread recycle (m.log.slot i)
  bwrite (m.log.slot i) data
  if i = m.log.lh.n then setN (m.log.lh.n + 1)
  modify (Machine.setDirty s data)

/-- What a system call logs: sectors with their new contents, in order. -/
abbrev Transaction := List (Sector × Block)

/-- One transaction of a system call. -/
def transaction (recycle : Recycle) (ws : Transaction) : Kernel Unit := do
  beginTrans
  ws.forM fun w => logWrite recycle w.1 w.2
  commitTrans recycle

/-- Transactions one after the other. -/
def transactions (recycle : Recycle) (Ts : List Transaction) : Kernel Unit :=
  Ts.forM (transaction recycle)

/-! ## Crashes -/

/-- Boots from a disk and recovers.  Each number of `ks` is a recovery that a
crash cuts short after that many sector writes; the last recovery runs to its
end. -/
def reboots (recycle : Recycle) : List Nat → Disk → Except Stop Disk
  | [], d => do
      let (_, m) ← (initlog recycle).run (boot d)
      pure m.disk
  | k :: ks, d => do
      let (_, m) ← (initlog recycle).run (boot d)
      reboots recycle ks (replay (m.writes.take k) d)

end Xv6Arm.Log
