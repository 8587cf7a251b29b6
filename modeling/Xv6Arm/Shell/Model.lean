import Xv6Arm.Lib.Runs

/-!
# The shell: command trees and `runcmd`

A command tree is what the parser makes of a line (`struct cmd` of `sh.c`).
`runcmd` walks the tree.  It forks a process for each side of a pipeline and
for the left side of a list, and it moves files to the descriptors 0 and 1 by
closing the descriptor and opening or duplicating a file, which the kernel then
puts into the lowest free descriptor (`fdalloc` of `sysfile.c`).

A process is the code it still has to run, its variable `p[2]` and its table of
open files.  The shell is a pool of processes that take turns in any order.  A
system call may fail where its caller looks at the result.  `wait` may return at
any time here, which allows more runs than the kernel does.
-/

namespace Xv6Arm.Shell

/-- Open files per process. -/
def NOFILE : Nat := 16

def O_RDONLY : Nat := 0x000

def O_WRONLY : Nat := 0x001

def O_CREATE : Nat := 0x200

/-- The descriptors that `redircmd` is called with. -/
inductive StdFd where
  | stdin
  | stdout
  deriving DecidableEq, Repr

def StdFd.num : StdFd → Nat
  | .stdin => 0
  | .stdout => 1

/-- Parsed commands, over a type of strings. -/
inductive Cmd (σ : Type) where
  | exec (argv : List σ)
  | redir (cmd : Cmd σ) (file : σ) (mode : Nat) (fd : StdFd)
  | pipe (left right : Cmd σ)
  | list (left right : Cmd σ)
  | back (cmd : Cmd σ)
  deriving DecidableEq, Repr

/-! ## Open files and descriptors -/

/-- A step from a node of the tree to one of its subcommands. -/
inductive Turn where
  | sub
  | left
  | right
  deriving DecidableEq, Repr

/-- A node of the tree, by the way from the root. -/
abbrev Node := List Turn

inductive End where
  | read
  | write
  deriving DecidableEq, Repr

/-- An open file.  The shell's own files, the console among them, are numbered.
The other files are opened while the tree is run.  Each node is run once
(`start_nodesRun_nodup`), so such a file is named by the node that opens it. -/
inductive File (σ : Type) where
  | own (n : Nat)
  | opened (node : Node) (file : σ) (mode : Nat)
  | pipe (node : Node) (e : End)
  deriving DecidableEq, Repr

/-- The table `proc->ofile`. -/
abbrev Table (σ : Type) := Nat → Option (File σ)

variable {σ : Type}

def close (t : Table σ) (fd : Nat) : Table σ := fun n => if n = fd then none else t n

/-- Puts a file into the lowest free descriptor. -/
def fdalloc (t : Table σ) (f : File σ) : Option (Nat × Table σ) :=
  match (List.range NOFILE).find? fun fd => (t fd).isNone with
  | some fd => some (fd, fun n => if n = fd then some f else t n)
  | none => none

/-- A `dup` that fails leaves the table as it is.  Its caller does not look. -/
def dup (t : Table σ) (fd : Nat) : Table σ :=
  match t fd with
  | some f =>
      match fdalloc t f with
      | some (_, t') => t'
      | none => t
  | none => t

/-- Makes the two ends of a pipe, the end for reading first. -/
def pipe (t : Table σ) (node : Node) : Option ((Nat × Nat) × Table σ) :=
  match fdalloc t (.pipe node .read) with
  | some (fd0, t₀) =>
      match fdalloc t₀ (.pipe node .write) with
      | some (fd1, t₁) => some ((fd0, fd1), t₁)
      | none => none
  | none => none

/-! ## Processes -/

/-- A descriptor in the text of `runcmd`. -/
inductive Arg where
  | num (fd : Nat)
  | p0
  | p1

/-- The value of a descriptor where `p[2]` holds `p`. -/
def Arg.val (p : Nat × Nat) : Arg → Nat
  | .num fd => fd
  | .p0 => p.1
  | .p1 => p.2

/-- What a process still has to run.  A call of `runcmd` does not return, so
nothing follows it.  `gone` is a process that has ended or runs another program. -/
inductive Code (σ : Type) where
  | runcmd (node : Node) (cmd : Cmd σ)
  | exec (node : Node) (argv : List σ) (k : Code σ)
  | close (fd : Arg) (k : Code σ)
  | «open» (node : Node) (file : σ) (mode : Nat) (k : Code σ)
  | dup (fd : Arg) (k : Code σ)
  | pipe (node : Node) (k : Code σ)
  | fork (child k : Code σ)
  | wait (k : Code σ)
  | exit
  | gone

/-- The body of `runcmd`, at a node of the tree. -/
def runcmd (node : Node) : Cmd σ → Code σ
  | .exec [] => .exit
  | .exec (a :: argv) => .exec node (a :: argv) .exit
  | .redir cmd file mode fd =>
      .close (.num fd.num) (.open node file mode (.runcmd (node ++ [.sub]) cmd))
  | .list left right =>
      .fork (.runcmd (node ++ [.left]) left)
        (.wait (.runcmd (node ++ [.right]) right))
  | .pipe left right =>
      .pipe node
        (.fork
          (.close (.num 1) (.dup .p1 (.close .p0 (.close .p1
            (.runcmd (node ++ [.left]) left)))))
          (.fork
            (.close (.num 0) (.dup .p0 (.close .p0 (.close .p1
              (.runcmd (node ++ [.right]) right)))))
            (.close .p0 (.close .p1 (.wait (.wait .exit))))))
  | .back cmd => .fork (.runcmd (node ++ [.sub]) cmd) .exit

structure Proc (σ : Type) where
  code : Code σ
  p : Nat × Nat
  ofile : Table σ

/-- One step of a process: what it becomes, and the processes it forks.  `ok` says
whether the system call succeeds. -/
def Proc.step (ok : Bool) (P : Proc σ) : Option (Proc σ × List (Proc σ)) :=
  match P.code with
  | .runcmd node cmd => some ({ P with code := runcmd node cmd }, [])
  | .exec _ _ k => some ({ P with code := if ok then .gone else k }, [])
  | .close fd k => some ({ P with code := k, ofile := Shell.close P.ofile (fd.val P.p) }, [])
  | .open node file mode k =>
      match ok, fdalloc P.ofile (.opened node file mode) with
      | true, some (_, t) => some ({ P with code := k, ofile := t }, [])
      | _, _ => some ({ P with code := .exit }, [])
  | .dup fd k => some ({ P with code := k, ofile := Shell.dup P.ofile (fd.val P.p) }, [])
  | .pipe node k =>
      match ok, Shell.pipe P.ofile node with
      | true, some (p, t) => some ({ P with code := k, p := p, ofile := t }, [])
      -- panic("pipe")
      | _, _ => some ({ P with code := .exit }, [])
  | .fork child k =>
      if ok then some ({ P with code := k }, [{ P with code := child }])
      -- panic("fork")
      else some ({ P with code := .exit }, [])
  | .wait k => some ({ P with code := k }, [])
  | .exit => some ({ P with code := .gone }, [])
  | .gone => none

/-- One step of the pool: the process number `l.1` moves. -/
def step (l : Nat × Bool) (pool : List (Proc σ)) : Option (List (Proc σ)) :=
  (pool[l.1]?).bind fun P => (P.step l.2).map fun r => pool.set l.1 r.1 ++ r.2

theorem step_cases {l : Nat × Bool} {pool pool' : List (Proc σ)} (h : step l pool = some pool') :
    ∃ P, pool[l.1]? = some P ∧ ∃ r, P.step l.2 = some r ∧ pool.set l.1 r.1 ++ r.2 = pool' := by
  simpa only [step, Option.bind_eq_some_iff, Option.map_eq_some_iff] using h

/-! ## Where `runcmd` starts -/

/-- The files at the descriptors 0, 1 and 2. -/
structure Files (σ : Type) where
  stdin : File σ
  stdout : File σ
  stderr : File σ

/-- The table in which exactly 0, 1 and 2 are open. -/
def Files.table (S : Files σ) : Table σ
  | 0 => some S.stdin
  | 1 => some S.stdout
  | 2 => some S.stderr
  | _ => none

/-- The files of a shell that has its own at all three. -/
def own (i o e : Nat) : Files σ := ⟨.own i, .own o, .own e⟩

/-- The loop at the start of `main`: it opens the console until a descriptor above
2 comes back, which it closes. -/
def openConsoles (console : Nat) : Nat → Table σ → Table σ
  | 0, t => t
  | n + 1, t =>
      match fdalloc t (.own console) with
      | none => t
      | some (fd, t') => if 3 ≤ fd then close t' fd else openConsoles console n t'

/-- The pool in which the child of `main` calls `runcmd`. -/
def start (i o e : Nat) (root : Cmd σ) : List (Proc σ) :=
  [⟨.runcmd [] root, (0, 0), (own i o e).table⟩]

end Xv6Arm.Shell
