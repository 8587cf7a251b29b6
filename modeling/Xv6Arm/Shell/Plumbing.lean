import Xv6Arm.Shell.Nodes

/-!
# The descriptors of the processes that run a command

`prescribed` reads off the tree which files a command should have at 0 and 1:
on the way from the root to the command, a redirection sets its descriptor and
a pipe sets 1 on its left and 0 on its right, and what is set last counts.

Every call of `runcmd` is made with exactly 0, 1 and 2 open, at the files that
the tree prescribes.  Between two calls other descriptors are open, and which
ones depends on the order of the calls, so the invariant is the condition that
the code of a process puts on its table (`Safe`).  The table is a known function
of the three files at each call of `runcmd`, so the condition is computed for
each kind of command (`runcmd_safe`), and the steps of a process keep it.
-/

namespace Xv6Arm.Shell

open Runs

variable {σ : Type}

/-! ## What the tree prescribes -/

def Files.set (S : Files σ) (fd : StdFd) (f : File σ) : Files σ :=
  match fd with
  | .stdin => { S with stdin := f }
  | .stdout => { S with stdout := f }

/-- The subcommand that a turn at a node leads to, with the files it should have if
the command at the node should have `S`. -/
def turn (node : Node) : Cmd σ → Files σ → Turn → Option (Cmd σ × Files σ)
  | .redir c file mode fd, S, .sub => some (c, S.set fd (.opened node file mode))
  | .pipe l _, S, .left => some (l, S.set .stdout (.pipe node .write))
  | .pipe _ r, S, .right => some (r, S.set .stdin (.pipe node .read))
  | .list l _, S, .left => some (l, S)
  | .list _ r, S, .right => some (r, S)
  | .back c, S, .sub => some (c, S)
  | _, _, _ => none

/-- The same for a way through the tree, from the node on. -/
def follow (node : Node) (r : Cmd σ × Files σ) : List Turn → Option (Cmd σ × Files σ)
  | [] => some r
  | d :: w => (turn node r.1 r.2 d).bind fun r' => follow (node ++ [d]) r' w

/-- The command at a node of the tree and the files it should have. -/
def prescribed (own : Files σ) (root : Cmd σ) (node : Node) : Option (Cmd σ × Files σ) :=
  follow [] (root, own) node

/-- A way that goes on by one turn. -/
theorem follow_snoc (w : List Turn) (d : Turn) : ∀ (node : Node) (r : Cmd σ × Files σ),
    follow node r (w ++ [d]) =
      (follow node r w).bind fun r' => turn (node ++ w) r'.1 r'.2 d := by
  induction w with
  | nil => intro node r; simp [follow]
  | cons d' w ih =>
      intro node r
      cases h : turn node r.1 r.2 d' with
      | none => simp [follow, h]
      | some r' => simp [follow, h, ih]

theorem prescribed_turn {own S : Files σ} {root c : Cmd σ} {node : Node}
    (h : prescribed own root node = some (c, S)) (d : Turn) :
    prescribed own root (node ++ [d]) = turn node c S d := by
  rw [prescribed] at h
  simp [prescribed, follow_snoc, h]

/-! ## Tables -/

/-- The table after `pipe` was called with exactly 0, 1 and 2 open. -/
def piped (S : Files σ) (node : Node) : Table σ
  | 3 => some (.pipe node .read)
  | 4 => some (.pipe node .write)
  | n => S.table n

theorem pipe_table (S : Files σ) (node : Node) :
    pipe S.table node = some ((3, 4), piped S node) := by
  have h : (fun n => if n = 4 then some (File.pipe node .write)
      else if n = 3 then some (File.pipe node .read) else S.table n) = piped S node := by
    funext n
    rcases n with _ | _ | _ | _ | _ | n <;> rfl
  exact congrArg (fun t => some ((3, 4), t)) h

/-- A standard descriptor that is closed is the lowest free one. -/
theorem fdalloc_close (S : Files σ) (fd : StdFd) (f : File σ) :
    fdalloc (close S.table fd.num) f = some (fd.num, (S.set fd f).table) := by
  have h : (fun n => if n = fd.num then some f else close S.table fd.num n) =
      (S.set fd f).table := by
    funext n
    cases fd <;> rcases n with _ | _ | _ | n <;> rfl
  cases fd <;> exact congrArg (fun t => some (_, t)) h

/-- The left side of a pipeline. -/
theorem dup_write (S : Files σ) (node : Node) :
    close (close (dup (close (piped S node) 1) 4) 3) 4 =
      (S.set .stdout (.pipe node .write)).table := by
  funext n
  rcases n with _ | _ | _ | _ | _ | n <;> rfl

/-- The right side of a pipeline. -/
theorem dup_read (S : Files σ) (node : Node) :
    close (close (dup (close (piped S node) 0) 3) 3) 4 =
      (S.set .stdin (.pipe node .read)).table := by
  funext n
  rcases n with _ | _ | _ | _ | _ | n <;> rfl

/-- The process that made the pipe. -/
theorem close_piped (S : Files σ) (node : Node) :
    close (close (piped S node) 3) 4 = S.table := by
  funext n
  rcases n with _ | _ | _ | _ | _ | n <;> rfl

/-- The file at 2 is not an end of a pipe that the tree made. -/
def Files.OwnErr (S : Files σ) : Prop := ∃ e, S.stderr = .own e

theorem Files.OwnErr.set {S : Files σ} (h : S.OwnErr) (fd : StdFd) (f : File σ) :
    (S.set fd f).OwnErr := by
  cases fd <;> exact h

theorem turn_ownErr {node : Node} {c : Cmd σ} {S : Files σ} {d : Turn} {r : Cmd σ × Files σ}
    (hS : S.OwnErr) (h : turn node c S d = some r) : r.2.OwnErr := by
  cases c <;> cases d <;> cases h
  all_goals first
    | exact hS
    | exact hS.set _ _

theorem follow_ownErr {w : List Turn} : ∀ {node : Node} {r r' : Cmd σ × Files σ},
    r.2.OwnErr → follow node r w = some r' → r'.2.OwnErr := by
  induction w with
  | nil =>
      intro node r r' hr h
      cases h
      exact hr
  | cons d w ih =>
      intro node r r' hr h
      rw [follow, Option.bind_eq_some_iff] at h
      obtain ⟨r₁, h₁, h₂⟩ := h
      exact ih (turn_ownErr hr h₁) h₂

/-- No end of a pipe is open, standard input and output apart. -/
def NoStray (t : Table σ) : Prop :=
  ∀ fd node e, t fd = some (.pipe node e) → fd = 0 ∨ fd = 1

theorem Files.OwnErr.noStray {S : Files σ} (h : S.OwnErr) : NoStray S.table := by
  obtain ⟨e, he⟩ := h
  intro fd node e' hfd
  rcases fd with _ | _ | _ | fd
  · exact .inl rfl
  · exact .inr rfl
  · simp [Files.table, he] at hfd
  · simp [Files.table] at hfd

/-! ## The invariant of a process -/

section

variable (own : Files σ) (root : Cmd σ)

/-- Exactly 0, 1 and 2 are open, at the files that the tree prescribes for the
command at the node. -/
def Standard (node : Node) (c : Cmd σ) (t : Table σ) : Prop :=
  ∃ S, prescribed own root node = some (c, S) ∧ t = S.table

/-- What the code of a process asks of its table. -/
def Safe : Code σ → Nat × Nat → Table σ → Prop
  | .runcmd node cmd, _, t => Standard own root node cmd t
  | .exec node argv k, p, t => Standard own root node (.exec argv) t ∧ Safe k p t
  | .close fd k, p, t => Safe k p (close t (fd.val p))
  | .open node file mode k, p, t =>
      ∀ fd t', fdalloc t (.opened node file mode) = some (fd, t') → Safe k p t'
  | .dup fd k, p, t => Safe k p (dup t (fd.val p))
  | .pipe node k, _, t => ∀ p' t', pipe t node = some (p', t') → Safe k p' t'
  | .fork child k, p, t => Safe child p t ∧ Safe k p t
  | .wait k, p, t => NoStray t ∧ Safe k p t
  | .exit, _, _ => True
  | .gone, _, _ => True

def Proc.Safe (P : Proc σ) : Prop := Shell.Safe own root P.code P.p P.ofile

end

variable {own : Files σ} {root : Cmd σ}

/-- The body of `runcmd` is safe where `runcmd` may be called. -/
theorem runcmd_safe (hown : own.OwnErr) {node : Node} {c : Cmd σ} {t : Table σ} (p : Nat × Nat)
    (h : Standard own root node c t) : Safe own root (runcmd node c) p t := by
  obtain ⟨S, hS, rfl⟩ := h
  have herr : S.OwnErr := follow_ownErr hown hS
  have next := prescribed_turn hS
  cases c with
  | exec argv =>
      cases argv with
      | nil => trivial
      | cons a argv => exact ⟨⟨S, hS, rfl⟩, trivial⟩
  | redir c file mode fd =>
      intro n t' ht'
      rw [Arg.val, fdalloc_close] at ht'
      cases ht'
      exact ⟨_, next .sub, rfl⟩
  | list l r => exact ⟨⟨S, next .left, rfl⟩, herr.noStray, ⟨S, next .right, rfl⟩⟩
  | pipe l r =>
      intro p' t' ht'
      rw [pipe_table] at ht'
      cases ht'
      refine ⟨⟨_, next .left, dup_write S node⟩, ⟨_, next .right, dup_read S node⟩, ?_⟩
      have hclosed : NoStray (close (close (piped S node) 3) 4) := by
        rw [close_piped]
        exact herr.noStray
      exact ⟨hclosed, hclosed, trivial⟩
  | back c => exact ⟨⟨S, next .sub, rfl⟩, trivial⟩

/-- A step keeps a process safe, and the processes it forks are safe. -/
theorem Proc.Safe.step (hown : own.OwnErr) {P : Proc σ} {ok : Bool} {r : Proc σ × List (Proc σ)}
    (h : P.Safe own root) (hs : P.step ok = some r) :
    r.1.Safe own root ∧ ∀ Q ∈ r.2, Q.Safe own root := by
  obtain ⟨code, p, t⟩ := P
  cases code with
  | runcmd node cmd =>
      cases hs
      exact ⟨runcmd_safe hown p h, by simp⟩
  | exec node argv k =>
      cases hs
      refine ⟨?_, by simp⟩
      cases ok with
      | true => trivial
      | false => exact h.2
  | close fd k =>
      cases hs
      exact ⟨h, by simp⟩
  | «open» node file mode k =>
      simp only [Proc.step] at hs
      split at hs
      · next fd t' ht' =>
        cases hs
        exact ⟨h _ _ ht', by simp⟩
      · cases hs
        exact ⟨trivial, by simp⟩
  | dup fd k =>
      cases hs
      exact ⟨h, by simp⟩
  | pipe node k =>
      simp only [Proc.step] at hs
      split at hs
      · next p' t' ht' =>
        cases hs
        exact ⟨h _ _ ht', by simp⟩
      · cases hs
        exact ⟨trivial, by simp⟩
  | fork child k =>
      cases ok with
      | true =>
          cases hs
          exact ⟨h.2, List.forall_mem_singleton.mpr h.1⟩
      | false =>
          cases hs
          exact ⟨trivial, by simp⟩
  | wait k =>
      cases hs
      exact ⟨h.2, by simp⟩
  | exit =>
      cases hs
      exact ⟨trivial, by simp⟩
  | gone => cases hs

/-- Every step of the pool keeps its processes safe. -/
theorem step_safe (hown : own.OwnErr) {l : Nat × Bool} {pool pool' : List (Proc σ)}
    (h : ∀ P ∈ pool, P.Safe own root) (hs : step l pool = some pool') :
    ∀ P ∈ pool', P.Safe own root := by
  obtain ⟨P, hP, r, hr, rfl⟩ := step_cases hs
  obtain ⟨hmoved, hforked⟩ := (h P (List.mem_of_getElem? hP)).step hown hr
  intro Q hQ
  rcases List.mem_append.mp hQ with hQ | hQ
  · rcases List.mem_or_eq_of_mem_set hQ with hQ | rfl
    · exact h Q hQ
    · exact hmoved
  · exact hforked Q hQ

/-! ## Every process of every run -/

/-- The process runs a leaf of the tree. -/
def Proc.AtLeaf (P : Proc σ) : Prop := ∃ node argv, P.code = .runcmd node (.exec argv)

/-- The process is about to wait for a child. -/
def Proc.Waits (P : Proc σ) : Prop := ∃ k, P.code = .wait k

/-- The descriptors of a process that calls `exec`, is at a leaf or waits. -/
structure Plumbed (own : Files σ) (root : Cmd σ) (P : Proc σ) : Prop where
  /-- At `exec` exactly 0, 1 and 2 are open, and 0 and 1 are what the tree says. -/
  exec : ∀ node argv k, P.code = .exec node argv k →
    ∃ S, prescribed own root node = some (.exec argv, S) ∧
      (∀ fd, (P.ofile fd).isSome ↔ fd < 3) ∧
      P.ofile 0 = some S.stdin ∧ P.ofile 1 = some S.stdout
  /-- No end of a pipe is left open. -/
  noStray : (∃ node argv k, P.code = .exec node argv k) ∨ P.AtLeaf ∨ P.Waits → NoStray P.ofile

theorem Files.isSome_table (S : Files σ) (fd : Nat) : (S.table fd).isSome ↔ fd < 3 := by
  rcases fd with _ | _ | _ | fd
  · simp [Files.table]
  · simp [Files.table]
  · simp [Files.table]
  · simp [Files.table]

theorem Standard.noStray (hown : own.OwnErr) {node : Node} {c : Cmd σ} {t : Table σ}
    (h : Standard own root node c t) : NoStray t := by
  obtain ⟨S, hS, rfl⟩ := h
  exact (follow_ownErr hown hS : S.OwnErr).noStray

theorem Proc.Safe.plumbed (hown : own.OwnErr) {P : Proc σ} (h : P.Safe own root) :
    Plumbed own root P := by
  obtain ⟨code, p, t⟩ := P
  constructor
  · rintro node argv k ⟨⟩
    obtain ⟨⟨S, hS, rfl⟩, -⟩ := h
    exact ⟨S, hS, S.isSome_table, rfl, rfl⟩
  · rintro (⟨node, argv, k, ⟨⟩⟩ | ⟨node, argv, ⟨⟩⟩ | ⟨k, ⟨⟩⟩)
    · exact h.1.noStray hown
    · exact Standard.noStray hown h
    · exact h.1

/-- Every process of a pool that starts with the shell's own files at 0, 1 and 2. -/
theorem start_plumbed (i o e : Nat) (root : Cmd σ) {tr : List (List (Proc σ) × (Nat × Bool))}
    {pool : List (Proc σ)} (h : Run step (start i o e root) tr pool) :
    Along (fun pool => ∀ P ∈ pool, Plumbed (Shell.own i o e) root P) tr pool := by
  have hown : (Shell.own i o e : Files σ).OwnErr := ⟨e, rfl⟩
  have hstart : ∀ P ∈ start i o e root, P.Safe (Shell.own i o e) root := by
    intro P hP
    rw [start, List.mem_singleton] at hP
    subst hP
    exact ⟨_, rfl, rfl⟩
  have hsafe := h.invariant (fun _ _ _ hI hs => step_safe hown hI hs) hstart
  exact hsafe.mono fun _ hI P hP => (hI P hP).plumbed hown

/-- For every tree and every order in which the processes move, every process has
the descriptors that the tree prescribes.  No node of the tree is run twice, so the
files that `prescribed` names by their nodes are single files. -/
theorem runcmd_plumbed (i o e : Nat) (root : Cmd σ) {tr : List (List (Proc σ) × (Nat × Bool))}
    {pool : List (Proc σ)} (h : Run step (start i o e root) tr pool) :
    (nodesRun tr).Nodup ∧
      Along (fun pool => ∀ P ∈ pool, Plumbed (Shell.own i o e) root P) tr pool :=
  ⟨start_nodesRun_nodup h, start_plumbed i o e root h⟩

/-- `ls | wc > out`, run to where the left side calls `exec`. -/
theorem runcmd_plumbed_pipeline :
    ∃ (root : Cmd String) (tr : List (List (Proc String) × (Nat × Bool)))
      (pool : List (Proc String)),
      root = .pipe (.exec ["ls"]) (.redir (.exec ["wc"]) "out" (O_WRONLY ||| O_CREATE) .stdout) ∧
      Run step (start 0 0 0 root) tr pool ∧
      (∃ P ∈ pool, ∃ node k, P.code = .exec node ["ls"] k ∧
        P.ofile 1 = some (.pipe [] .write)) ∧
      (nodesRun tr).Nodup ∧
      Along (fun pool => ∀ P ∈ pool, Plumbed (Shell.own 0 0 0) root P) tr pool := by
  obtain ⟨pool, hpool, hP⟩ : ∃ pool,
      Runs.exec step [(0, true), (0, true), (0, true), (1, true), (1, true), (1, true),
        (1, true), (1, true)] (start 0 0 0 (.pipe (.exec ["ls"])
          (.redir (.exec ["wc"]) "out" (O_WRONLY ||| O_CREATE) .stdout))) = some pool ∧
      ∃ P ∈ pool, ∃ node k, P.code = .exec node ["ls"] k ∧ P.ofile 1 = some (.pipe [] .write) :=
    ⟨_, rfl, _, .tail _ (.head _), _, _, rfl, rfl⟩
  obtain ⟨tr, hrun, -⟩ := run_of_exec hpool
  exact ⟨_, tr, pool, rfl, hrun, hP, runcmd_plumbed 0 0 0 _ hrun⟩

/-! ## The shell before its first command -/

/-- A table in which at most 0, 1 and 2 are open. -/
def slots (a b c : Option (File σ)) : Table σ
  | 0 => a
  | 1 => b
  | 2 => c
  | _ => none

/-- Each free descriptor of the three takes one round, and one more round stops. -/
theorem openConsoles_slots (console : Nat) (a b c : Option (File σ)) :
    openConsoles console 4 (slots a b c) =
      (Files.mk (a.getD (.own console)) (b.getD (.own console)) (c.getD (.own console))).table := by
  funext n
  cases a <;> cases b <;> cases c <;> rcases n with _ | _ | _ | _ | n <;> rfl

/-- Whichever of its first three descriptors the shell was started with, the loop at
the start of `main` leaves exactly 0, 1 and 2 open. -/
theorem openConsoles_table (console : Nat) {t : Table σ}
    (hown : ∀ fd f, t fd = some f → ∃ n, f = .own n) (hrest : ∀ fd, 3 ≤ fd → t fd = none) :
    ∃ i o e, openConsoles console 4 t = (Shell.own i o e).table := by
  have ht : t = slots (t 0) (t 1) (t 2) := by
    funext n
    rcases n with _ | _ | _ | n
    · rfl
    · rfl
    · rfl
    · exact hrest _ (by omega)
  have hfile (fd : Nat) : ∃ n, (t fd).getD (.own console) = .own n := by
    cases h : t fd with
    | none => exact ⟨console, rfl⟩
    | some f => exact hown fd f h
  obtain ⟨i, hi⟩ := hfile 0
  obtain ⟨o, ho⟩ := hfile 1
  obtain ⟨e, he⟩ := hfile 2
  refine ⟨i, o, e, ?_⟩
  rw [ht, openConsoles_slots, hi, ho, he, Shell.own]

/-- So a command of the shell is run with the descriptors that its tree prescribes,
whichever of the first three descriptors the shell was started with. -/
theorem main_plumbed (console : Nat) {t : Table σ}
    (hown : ∀ fd f, t fd = some f → ∃ n, f = .own n) (hrest : ∀ fd, 3 ≤ fd → t fd = none)
    (root : Cmd σ) {tr : List (List (Proc σ) × (Nat × Bool))} {pool : List (Proc σ)}
    (h : Run step [⟨.runcmd [] root, (0, 0), openConsoles console 4 t⟩] tr pool) :
    ∃ i o e, openConsoles console 4 t = (Shell.own i o e).table ∧ (nodesRun tr).Nodup ∧
      Along (fun pool => ∀ P ∈ pool, Plumbed (Shell.own i o e) root P) tr pool := by
  obtain ⟨i, o, e, ht⟩ := openConsoles_table console hown hrest
  rw [ht] at h
  exact ⟨i, o, e, ht, start_nodesRun_nodup h, start_plumbed i o e root h⟩

end Xv6Arm.Shell
