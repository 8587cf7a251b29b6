import Xv6Arm.Exec.Stack
import Xv6Arm.Lib.Account

/-!
# What exec gives back

All of `exec`, as a program over the functions that it calls.  They may answer anything:
`namei`, `setupkvm`, `allocuvm`, `loaduvm` and `copyout` may fail each time, and `readi`
may return any count and any bytes.

The account of a path through `exec` is the inode and the page directory that it has
taken and given back, and the fields of `proc` that it has assigned.  `ip` is cleared
when the inode is put, and `pgdir` is set only when there is a directory, so that `bad`
gives back exactly what there is.  But `setupkvm` of this port hands out the same
directory each time, and `exec` installs it: to the next `exec` it is the directory that
the process runs on.
-/

namespace Xv6Arm.Exec.Cleanup

open Programs Prog Args

/-! ## The program -/

/-- The fields of `struct elfhdr` that `exec` uses. -/
structure Elfhdr where
  magic : Word
  entry : Word
  phoff : Word
  phnum : BitVec 16

/-- A page directory. -/
abbrev Dir := Word

/-- The functions that `exec` calls, and its uses of `proc`. -/
inductive Op
  | namei (path : List UInt8)
  | ilock (ip : Nat)
  /-- `readi(ip, &elf, 0, sizeof(elf))` -/
  | readElf (ip : Nat)
  /-- `readi(ip, &ph, off, sizeof(ph))` -/
  | readPh (ip : Nat) (off : Word)
  | iunlockput (ip : Nat)
  | setupkvm
  | allocuvm (pgdir : Dir) (oldsz newsz : Word)
  | loaduvm (pgdir : Dir) (addr : Word) (ip : Nat) (off size : Word)
  | clearpteu (pgdir : Dir) (uva : Word)
  | copyout (pgdir : Dir) (va : Word) (p : List UInt8)
  | freevm (pgdir : Dir)
  /-- `safestrcpy(proc->name, last, sizeof(proc->name))` -/
  | setName (name : List UInt8)
  | getPgdir
  | setPgdir (pgdir : Dir)
  | setSz (sz : Word)
  | setEip (eip : Word)
  | setEsp (esp : Word)
  | switchuvm

/-- What the functions return.  `readi` returns a count, and what the buffer holds then. -/
def Op.Resp : Op → Type
  | .namei _ => Option Nat
  | .readElf _ => Word × Elfhdr
  | .readPh .. => Word × Proghdr
  | .setupkvm => Option Dir
  | .allocuvm .. => Word
  | .loaduvm .. => Bool
  | .copyout .. => Bool
  | .getPgdir => Dir
  | _ => Unit

def layer : Interface where
  Op := Op
  Resp := Op.Resp

abbrev Code (α : Type) : Type := Prog layer α

def namei (path : List UInt8) : Code (Option Nat) := @Prog.call layer (.namei path)
def ilock (ip : Nat) : Code Unit := @Prog.call layer (.ilock ip)
def readElf (ip : Nat) : Code (Word × Elfhdr) := @Prog.call layer (.readElf ip)
def readPh (ip : Nat) (off : Word) : Code (Word × Proghdr) := @Prog.call layer (.readPh ip off)
def iunlockput (ip : Nat) : Code Unit := @Prog.call layer (.iunlockput ip)
def setupkvm : Code (Option Dir) := @Prog.call layer .setupkvm
def allocuvm (pgdir : Dir) (oldsz newsz : Word) : Code Word :=
  @Prog.call layer (.allocuvm pgdir oldsz newsz)
/-- Whether `loaduvm` returns 0. -/
def loaduvm (pgdir : Dir) (addr : Word) (ip : Nat) (off size : Word) : Code Bool :=
  @Prog.call layer (.loaduvm pgdir addr ip off size)
def clearpteu (pgdir : Dir) (uva : Word) : Code Unit := @Prog.call layer (.clearpteu pgdir uva)
/-- Whether `copyout` returns 0. -/
def copyout (pgdir : Dir) (va : Word) (p : List UInt8) : Code Bool :=
  @Prog.call layer (.copyout pgdir va p)
def freevm (pgdir : Dir) : Code Unit := @Prog.call layer (.freevm pgdir)
def setName (name : List UInt8) : Code Unit := @Prog.call layer (.setName name)
def getPgdir : Code Dir := @Prog.call layer .getPgdir
def setPgdir (pgdir : Dir) : Code Unit := @Prog.call layer (.setPgdir pgdir)
def setSz (sz : Word) : Code Unit := @Prog.call layer (.setSz sz)
def setEip (eip : Word) : Code Unit := @Prog.call layer (.setEip eip)
def setEsp (esp : Word) : Code Unit := @Prog.call layer (.setEsp esp)
def switchuvm : Code Unit := @Prog.call layer .switchuvm

/-- The loop over the program headers, with `n` of them left: the size of the process, or
`none` for `goto bad`. -/
def loadLoop (ip : Nat) (pgdir : Dir) : Nat → Word → Word → Code (Option Word)
  | 0, _, sz => return some sz
  | n + 1, off, sz => do
      let r ← readPh ip off
      if r.1 ≠ 32 then return none
      else if r.2.type ≠ ELF_PROG_LOAD then loadLoop ip pgdir n (off + 32) sz
      else if r.2.memsz < r.2.filesz then return none
      else do
        let sz ← allocuvm pgdir sz (r.2.vaddr + r.2.memsz)
        if sz = 0 then return none
        else do
          if ← loaduvm pgdir r.2.vaddr ip r.2.off r.2.filesz then
            loadLoop ip pgdir n (off + 32) sz
          else return none

/-- The loop over the arguments, with the elements of `ustack` so far. -/
def argLoop (pgdir : Dir) : List CString → List Word → Word → Code (Option (List Word × Word))
  | [], args, sp => return some (args, sp)
  | s :: argv, args, sp =>
      if MAXARG ≤ args.length then return none
      else do
        let sp := (sp - BitVec.ofNat 32 (s.bytes.length + 1)) &&& ~~~3
        if ← copyout pgdir sp (s.bytes ++ [0]) then argLoop pgdir argv (args ++ [sp]) sp
        else return none

/-- The loop that finds the last element of the path. -/
def lastElement : List UInt8 → List UInt8 → List UInt8
  | last, [] => last
  | last, c :: s => lastElement (if c = 47 then s else last) s

/-- `if(pgdir) freevm(pgdir);` -/
def freeIf : Option Dir → Code Unit
  | some pgdir => freevm pgdir
  | none => return ()

/-- `if(ip) iunlockput(ip);` -/
def putIf : Option Nat → Code Unit
  | some ip => iunlockput ip
  | none => return ()

/-- The exit `bad`. -/
def bad (pgdir : Option Dir) (ip : Option Nat) : Code Int := do
  freeIf pgdir
  putIf ip
  return -1

/-- The commit to the new image. -/
def commit (path : List UInt8) (entry : Word) (pgdir : Dir) (sz sp : Word) : Code Int := do
  setName ((lastElement path path).take 15)
  let oldpgdir ← getPgdir
  setPgdir pgdir
  setSz sz
  setEip entry
  setEsp sp
  switchuvm
  freevm oldpgdir
  return 0

/-- The arguments on the stack of a process of `sz` bytes. -/
def pushArgs (path : List UInt8) (argv : List CString) (entry : Word) (pgdir : Dir) (sz : Word) :
    Code Int := do
  match ← argLoop pgdir argv [] sz with
  | none => bad (some pgdir) none
  | some (args, sp) => do
      let sp' := sp - (3 + BitVec.ofNat 32 args.length + 1) * 4
      if ← copyout pgdir sp' ((ustack args sp).flatMap wordBytes) then
        commit path entry pgdir sz sp'
      else bad (some pgdir) none

/-- The part of `exec` after the loop over the program headers. -/
def addStack (path : List UInt8) (argv : List CString) (entry : Word) (pgdir : Dir) (sz : Word) :
    Code Int := do
  let sz ← allocuvm pgdir (PGROUNDUP sz) (PGROUNDUP sz + 2 * PGSIZE)
  if sz = 0 then bad (some pgdir) none
  else do
    clearpteu pgdir (sz - 2 * PGSIZE)
    pushArgs path argv entry pgdir sz

/-- `exec`.  `readi` returns an int, which is compared with `sizeof(elf)` as an unsigned number. -/
def exec (path : List UInt8) (argv : List CString) : Code Int := do
  match ← namei path with
  | none => return -1
  | some ip => do
      ilock ip
      let (n, elf) ← readElf ip
      if n < 52 then bad none (some ip)
      else if elf.magic.toNat ≠ ELF_MAGIC then bad none (some ip)
      else do
        match ← setupkvm with
        | none => bad none (some ip)
        | some pgdir => do
            match ← loadLoop ip pgdir elf.phnum.toNat elf.phoff 0 with
            | none => bad (some pgdir) (some ip)
            | some sz => do
                iunlockput ip
                addStack path argv elf.entry pgdir sz

/-! ## The account -/

/-- The fields of `proc` that `exec` assigns, with those of its trap frame. -/
structure Task where
  pgdir : Dir
  sz : Word
  eip : Word
  esp : Word
  name : List UInt8

/-- What `exec` has done: the inodes from `namei`, those it locked, and those it unlocked and put;
the directories from `setupkvm`, and those it passed to `freevm`. -/
structure Books where
  task : Task
  taken : List Nat
  locked : List Nat
  released : List Nat
  obtained : List Dir
  freed : List Dir

/-- The inode is locked and not yet put. -/
def Books.Open (m : Books) (ip : Nat) : Prop := ip ∈ m.locked ∧ ip ∉ m.released

instance (m : Books) (ip : Nat) : Decidable (m.Open ip) := inferInstanceAs (Decidable (_ ∧ _))

/-- The directory is a new one that is not freed. -/
def Books.Live (m : Books) (d : Dir) : Prop := d ∈ m.obtained ∧ d ∉ m.freed

instance (m : Books) (d : Dir) : Decidable (m.Live d) := inferInstanceAs (Decidable (_ ∧ _))

/-- The account of `exec`.  It breaks a rule if it uses an inode or a directory that it does not
have.  `setupkvm` may hand out any directory, also the one that the process runs on. -/
def books : Account layer Books
  | .namei _, r, m => .ok { m with taken := m.taken ++ (show Option Nat from r).toList }
  | .ilock ip, _, m => if ip ∈ m.taken then .ok { m with locked := m.locked ++ [ip] } else .broken
  | .readElf ip, _, m => if m.Open ip then .ok m else .broken
  | .readPh ip _, _, m => if m.Open ip then .ok m else .broken
  | .iunlockput ip, _, m =>
      if m.Open ip then .ok { m with released := m.released ++ [ip] } else .broken
  | .setupkvm, r, m =>
      match (show Option Dir from r) with
      | none => .ok m
      | some d => .ok { m with obtained := m.obtained ++ [d] }
  | .allocuvm d _ _, _, m => if m.Live d then .ok m else .broken
  | .loaduvm d _ ip _ _, _, m => if m.Live d ∧ m.Open ip then .ok m else .broken
  | .clearpteu d _, _, m => if m.Live d then .ok m else .broken
  | .copyout d _ _, _, m => if m.Live d then .ok m else .broken
  | .freevm d, _, m => .ok { m with freed := m.freed ++ [d] }
  | .setName name, _, m => .ok { m with task := { m.task with name } }
  | .getPgdir, d, m => if m.task.pgdir = (show Dir from d) then .ok m else .never
  | .setPgdir pgdir, _, m => .ok { m with task := { m.task with pgdir } }
  | .setSz sz, _, m => .ok { m with task := { m.task with sz } }
  | .setEip eip, _, m => .ok { m with task := { m.task with eip } }
  | .setEsp esp, _, m => .ok { m with task := { m.task with esp } }
  | .switchuvm, _, m => .ok m

/-- The account at the start. -/
def Books.start (task : Task) : Books := ⟨task, [], [], [], [], []⟩

/-- A failed `exec`: `proc` is as before, the inode that was found was locked and released once,
and the new directory was freed once, if there was one, and is not installed. -/
structure Failed (task : Task) (m : Books) : Prop where
  task : m.task = task
  locked : m.locked = m.taken
  released : m.released = m.taken
  inode : m.taken.length ≤ 1
  freed : m.freed = m.obtained
  directory : m.obtained.length ≤ 1
  not_installed : m.task.pgdir ∉ m.obtained

/-- An `exec` that returns 0: the inode was released once, and the old directory was freed once and
the new one is installed. -/
structure Succeeded (task : Task) (m : Books) : Prop where
  inode : ∃ ip, m.taken = [ip] ∧ m.locked = [ip] ∧ m.released = [ip]
  directory : ∃ d, m.obtained = [d] ∧ m.task.pgdir = d
  freed : m.freed = [task.pgdir]

/-- What `exec` leaves behind with its result. -/
def Cleans (task : Task) (r : Int) (m : Books) : Prop :=
  (r = -1 ∧ Failed task m) ∨ (r = 0 ∧ Succeeded task m)

/-- What it leaves behind unless it was handed the directory that the process runs on. -/
def CleansNew (task : Task) (r : Int) (m : Books) : Prop :=
  task.pgdir ∉ m.obtained → Cleans task r m

/-! ## Every path -/

section Paths

variable {task : Task} {ip : Nat} {d : Dir} {R : List Nat}

/-- A call that the account takes whatever it returns. -/
theorem settles_step {m m₁ : Books} {o : Op} (h : ∀ r, books o r m = .ok m₁) :
    (@Prog.call layer o).Settles books m fun _ m' => m' = m₁ :=
  settles_call fun r => .inr ⟨m₁, h r, rfl⟩

theorem live_new (R : List Nat) : (Books.mk task [ip] [ip] R [d] []).Live d :=
  ⟨List.mem_singleton_self d, List.not_mem_nil⟩

theorem open_new (D F : List Dir) : (Books.mk task [ip] [ip] [] D F).Open ip :=
  ⟨List.mem_singleton_self ip, List.not_mem_nil⟩

theorem settles_allocuvm (oldsz newsz : Word) :
    (allocuvm d oldsz newsz).Settles books ⟨task, [ip], [ip], R, [d], []⟩
      fun _ m => m = ⟨task, [ip], [ip], R, [d], []⟩ :=
  settles_step fun _ => if_pos (live_new R)

theorem settles_copyout (va : Word) (p : List UInt8) :
    (copyout d va p).Settles books ⟨task, [ip], [ip], R, [d], []⟩
      fun _ m => m = ⟨task, [ip], [ip], R, [d], []⟩ :=
  settles_step fun _ => if_pos (live_new R)

theorem settles_iunlockput (D F : List Dir) :
    (iunlockput ip).Settles books ⟨task, [ip], [ip], [], D, F⟩
      fun _ m => m = ⟨task, [ip], [ip], [ip], D, F⟩ :=
  settles_step fun _ => if_pos (open_new D F)

theorem settles_freevm (T L : List Nat) (D F : List Dir) :
    (freevm d).Settles books ⟨task, T, L, R, D, F⟩
      fun _ m => m = ⟨task, T, L, R, D, F ++ [d]⟩ :=
  settles_step fun _ => rfl

theorem settles_getPgdir (m : Books) :
    getPgdir.Settles books m fun old m' => old = m.task.pgdir ∧ m' = m := by
  refine settles_call fun old => ?_
  by_cases hold : m.task.pgdir = (show Dir from old)
  · exact .inr ⟨m, if_pos hold, hold.symm, rfl⟩
  · exact .inl (if_neg hold)

/-- The loop over the program headers takes nothing and gives nothing back. -/
theorem settles_loadLoop (n : Nat) : ∀ off sz : Word,
    (loadLoop ip d n off sz).Settles books ⟨task, [ip], [ip], [], [d], []⟩
      fun _ m => m = ⟨task, [ip], [ip], [], [d], []⟩ := by
  induction n with
  | zero => exact fun _ _ => settles_pure rfl
  | succ n ih =>
      intro off sz
      have hread : (readPh ip off).Settles books ⟨task, [ip], [ip], [], [d], []⟩
          fun _ m => m = ⟨task, [ip], [ip], [], [d], []⟩ :=
        settles_step fun _ => if_pos (open_new _ _)
      refine hread.bind ?_
      rintro ⟨count, ph⟩ _ rfl
      dsimp only
      split_ifs
      · exact settles_pure rfl
      · exact ih _ _
      · exact settles_pure rfl
      · refine (settles_allocuvm _ _).bind ?_
        rintro sz' _ rfl
        split_ifs
        · exact settles_pure rfl
        · have hload : (loaduvm d ph.vaddr ip ph.off ph.filesz).Settles books
              ⟨task, [ip], [ip], [], [d], []⟩ fun _ m => m = ⟨task, [ip], [ip], [], [d], []⟩ :=
            settles_step fun _ => if_pos ⟨live_new _, open_new _ _⟩
          refine hload.bind ?_
          rintro loaded _ rfl
          split
          · exact ih _ _
          · exact settles_pure rfl

/-- So does the loop over the arguments. -/
theorem settles_argLoop (argv : List CString) : ∀ (args : List Word) (sp : Word),
    (argLoop d argv args sp).Settles books ⟨task, [ip], [ip], R, [d], []⟩
      fun _ m => m = ⟨task, [ip], [ip], R, [d], []⟩ := by
  induction argv with
  | nil => exact fun _ _ => settles_pure rfl
  | cons s argv ih =>
      intro args sp
      unfold argLoop
      split_ifs
      · exact settles_pure rfl
      · refine (settles_copyout _ _).bind ?_
        rintro copied _ rfl
        split
        · exact ih _ _
        · exact settles_pure rfl

/-- `bad` before there is a directory. -/
theorem settles_bad_inode : (bad none (some ip)).Settles books ⟨task, [ip], [ip], [], [], []⟩
    (CleansNew task) := by
  refine (settles_iunlockput [] []).bind ?_
  rintro - _ rfl
  exact settles_pure fun hnew => .inl ⟨rfl, rfl, rfl, rfl, le_rfl, rfl, Nat.zero_le _, hnew⟩

/-- `bad` in the loop over the program headers. -/
theorem settles_bad_both :
    (bad (some d) (some ip)).Settles books ⟨task, [ip], [ip], [], [d], []⟩ (CleansNew task) := by
  refine (settles_freevm _ _ _ _).bind ?_
  rintro - _ rfl
  refine (settles_iunlockput _ _).bind ?_
  rintro - _ rfl
  exact settles_pure fun hnew => .inl ⟨rfl, rfl, rfl, rfl, le_rfl, rfl, le_rfl, hnew⟩

/-- `bad` after the inode was put. -/
theorem settles_bad_directory :
    (bad (some d) none).Settles books ⟨task, [ip], [ip], [ip], [d], []⟩ (CleansNew task) := by
  refine (settles_freevm _ _ _ _).bind ?_
  rintro - _ rfl
  exact settles_pure fun hnew => .inl ⟨rfl, rfl, rfl, rfl, le_rfl, rfl, le_rfl, hnew⟩

/-- The commit frees the directory that the process ran on before. -/
theorem settles_commit (path : List UInt8) (entry sz sp : Word) :
    (commit path entry d sz sp).Settles books ⟨task, [ip], [ip], [ip], [d], []⟩
      (CleansNew task) := by
  let named : Task := { task with name := (lastElement path path).take 15 }
  let moved : Task := { named with pgdir := d, sz := sz, eip := entry, esp := sp }
  have hassign : (do setPgdir d; setSz sz; setEip entry; setEsp sp; switchuvm : Code Unit).Settles
      books ⟨named, [ip], [ip], [ip], [d], []⟩ fun _ m => m = ⟨moved, [ip], [ip], [ip], [d], []⟩ :=
    fun _ _ _ _ _ => rfl
  refine Settles.bind (settles_step (m := ⟨task, [ip], [ip], [ip], [d], []⟩)
    (o := .setName named.name) fun _ => rfl) ?_
  rintro - _ rfl
  refine (settles_getPgdir ⟨named, [ip], [ip], [ip], [d], []⟩).bind ?_
  rintro old _ ⟨rfl, rfl⟩
  refine hassign.bind ?_
  rintro - _ rfl
  refine (settles_freevm _ _ _ _).bind ?_
  rintro - _ rfl
  exact settles_pure fun _ => .inr ⟨rfl, ⟨ip, rfl, rfl, rfl⟩, ⟨d, rfl, rfl⟩, rfl⟩

theorem settles_pushArgs (path : List UInt8) (argv : List CString) (entry sz : Word) :
    (pushArgs path argv entry d sz).Settles books ⟨task, [ip], [ip], [ip], [d], []⟩
      (CleansNew task) := by
  refine (settles_argLoop argv _ _).bind ?_
  rintro r _ rfl
  cases r with
  | none => exact settles_bad_directory
  | some pushed =>
      obtain ⟨args, sp⟩ := pushed
      refine (settles_copyout _ _).bind ?_
      rintro copied _ rfl
      split
      · exact settles_commit _ _ _ _
      · exact settles_bad_directory

theorem settles_addStack (path : List UInt8) (argv : List CString) (entry sz : Word) :
    (addStack path argv entry d sz).Settles books ⟨task, [ip], [ip], [ip], [d], []⟩
      (CleansNew task) := by
  refine (settles_allocuvm _ _).bind ?_
  rintro sz' _ rfl
  split_ifs
  · exact settles_bad_directory
  · have hclear : (clearpteu d (sz' - 2 * PGSIZE)).Settles books
        ⟨task, [ip], [ip], [ip], [d], []⟩ fun _ m => m = ⟨task, [ip], [ip], [ip], [d], []⟩ :=
      settles_step fun _ => if_pos (live_new _)
    refine hclear.bind ?_
    rintro - _ rfl
    exact settles_pushArgs _ _ _ _

theorem settles_exec (path : List UInt8) (argv : List CString) (task : Task) :
    (exec path argv).Settles books (Books.start task) (CleansNew task) := by
  have hnamei : (namei path).Settles books (Books.start task) fun r m =>
      m = ⟨task, r.toList, [], [], [], []⟩ := settles_call fun r => .inr ⟨_, rfl, rfl⟩
  refine hnamei.bind ?_
  rintro r _ rfl
  cases r with
  | none =>
      exact settles_pure fun hnew =>
        .inl ⟨rfl, rfl, rfl, rfl, Nat.zero_le _, rfl, Nat.zero_le _, hnew⟩
  | some ip =>
      have hlock : (ilock ip).Settles books ⟨task, [ip], [], [], [], []⟩ fun _ m =>
          m = ⟨task, [ip], [ip], [], [], []⟩ :=
        settles_step fun _ => if_pos (List.mem_singleton_self ip)
      refine hlock.bind ?_
      rintro - _ rfl
      have hread : (readElf ip).Settles books ⟨task, [ip], [ip], [], [], []⟩ fun _ m =>
          m = ⟨task, [ip], [ip], [], [], []⟩ := settles_step fun _ => if_pos (open_new _ _)
      refine hread.bind ?_
      rintro ⟨count, elf⟩ _ rfl
      dsimp only
      split_ifs
      · exact settles_bad_inode
      · exact settles_bad_inode
      · have hsetup : setupkvm.Settles books ⟨task, [ip], [ip], [], [], []⟩ fun r m =>
            m = ⟨task, [ip], [ip], [], r.toList, []⟩ := by
          refine settles_call fun r => ?_
          cases r with
          | none => exact .inr ⟨_, rfl, rfl⟩
          | some d => exact .inr ⟨_, rfl, rfl⟩
        refine hsetup.bind ?_
        rintro r _ rfl
        cases r with
        | none => exact settles_bad_inode
        | some d =>
            refine (settles_loadLoop _ _ _).bind ?_
            rintro r _ rfl
            cases r with
            | none => exact settles_bad_both
            | some sz =>
                refine (settles_iunlockput _ _).bind ?_
                rintro - _ rfl
                exact settles_addStack _ _ _ _

end Paths

/-! ## Files that end early -/

/-- An ELF header with one program header, behind which the file ends. -/
def truncated (path : List UInt8) (d : Dir) : List layer.Event :=
  [⟨.namei path, some 5⟩, ⟨.ilock 5, ()⟩, ⟨.readElf 5, (52, ⟨0x464C457F, 0, 52, 1⟩)⟩,
    ⟨.setupkvm, some d⟩, ⟨.readPh 5 52, (0, ⟨0, 0, 0, 0, 0⟩)⟩, ⟨.freevm d, ()⟩,
    ⟨.iunlockput 5, ()⟩]

theorem path_truncated (path : List UInt8) (argv : List CString) (d : Dir) :
    Path (exec path argv) (truncated path d) (-1) :=
  .op (.op (.op (.op (.op (.op (.op (.ret (-1))))))))

theorem run_truncated (path : List UInt8) (task : Task) (d : Dir) :
    books.run (truncated path d) (Books.start task) = .ok ⟨task, [5], [5], [5], [d], [d]⟩ := rfl

/-- A failed `exec` does not clean up if it has freed the directory that the process runs on. -/
theorem not_cleans_of_installed {task : Task} {m : Books} (h : task.pgdir ∈ m.obtained) :
    ¬ Cleans task (-1) m := by
  rintro (⟨-, hfailed⟩ | ⟨hzero, -⟩)
  · exact hfailed.not_installed (hfailed.task.symm ▸ h)
  · cases hzero

/-- Let `d` be the directory that `setupkvm` hands out, and let the functions that `exec` calls
return whatever they may.  `exec` uses and gives back only what it has.  If it returns -1, the
process is as before and everything that was taken has been given back once; if it returns 0, the
inode and the old directory have been given back once.  This is so exactly if the process does not
run on `d`. -/
theorem exec_cleans_up_iff (path : List UInt8) (argv : List CString) (task : Task) (d : Dir) :
    (∀ tr r, Path (exec path argv) tr r → books.run tr (Books.start task) ≠ .broken ∧
      ∀ m, books.run tr (Books.start task) = .ok m → m.obtained ⊆ [d] → Cleans task r m) ↔
    d ≠ task.pgdir := by
  constructor
  · rintro h rfl
    obtain ⟨-, hcleans⟩ := h _ _ (path_truncated path argv task.pgdir)
    exact not_cleans_of_installed (List.mem_singleton_self _)
      (hcleans _ (run_truncated path task task.pgdir) (List.Subset.refl _))
  · intro hd tr r hpath
    obtain ⟨hok, hcleans⟩ := (settles_exec path argv task).path hpath
    refine ⟨hok, fun m hm hsub => hcleans m hm fun hmem => ?_⟩
    exact hd (List.mem_singleton.mp (hsub hmem)).symm

/-- A first process, which runs on the directory 0x80020000. -/
def firstTask : Task :=
  { pgdir := 0x80020000, sz := 0x1000, eip := 0, esp := 0x1000, name := [105, 110, 105, 116] }

/-- Its `exec` of a program without segments, to which `setupkvm` gives the directory `d`. -/
def loaded (d : Dir) : List layer.Event :=
  [⟨.namei [115, 104], some 4⟩, ⟨.ilock 4, ()⟩, ⟨.readElf 4, (52, ⟨0x464C457F, 0x40, 52, 0⟩)⟩,
    ⟨.setupkvm, some d⟩, ⟨.iunlockput 4, ()⟩, ⟨.allocuvm d 0 0x2000, (0x2000 : Word)⟩, ⟨.clearpteu d 0, ()⟩,
    ⟨.copyout d 0x1ff0 ((ustack [] 0x2000).flatMap wordBytes), true⟩, ⟨.setName [115, 104], ()⟩,
    ⟨.getPgdir, firstTask.pgdir⟩, ⟨.setPgdir d, ()⟩, ⟨.setSz 0x2000, ()⟩, ⟨.setEip 0x40, ()⟩,
    ⟨.setEsp 0x1ff0, ()⟩, ⟨.switchuvm, ()⟩, ⟨.freevm firstTask.pgdir, ()⟩]

/-- `setupkvm` returns `kernel_pgdir`, here 0x80014000, to every `exec`.  The first one installs it,
and the second one fails and frees it under the process. -/
theorem secondExec_not_cleans :
    ∃ m₁ m₂ : Books, Path (exec [115, 104] []) (loaded 0x80014000) 0 ∧
      books.run (loaded 0x80014000) (Books.start firstTask) = .ok m₁ ∧
      Path (exec [97] []) (truncated [97] 0x80014000) (-1) ∧
      books.run (truncated [97] 0x80014000) (Books.start m₁.task) = .ok m₂ ∧
      m₂.freed = [m₁.task.pgdir] ∧ m₂.task = m₁.task ∧ ¬ Cleans m₁.task (-1) m₂ := by
  have hloaded : Path (exec [115, 104] []) (loaded 0x80014000) 0 := by
    repeat' constructor
  refine ⟨_, _, hloaded, rfl, path_truncated [97] [] _, run_truncated [97] _ _, rfl, rfl, ?_⟩
  exact not_cleans_of_installed (List.mem_singleton_self _)

end Xv6Arm.Exec.Cleanup
