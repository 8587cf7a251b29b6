import Xv6Arm.Lib.Bytes
import Xv6Arm.Lib.Fallible
import Xv6Arm.Mem.Layout

/-!
# The arguments of system calls

The functions of `syscall.c` that fetch the arguments of a system call, and `sys_exec`
up to its call of `exec`.  They read user memory through user addresses.  A read of an
address that is not below the size of the process is an `Outside`.

Addresses and sizes are machine words, and `int` is a word that is read as a signed
number where the source compares it.
-/

namespace Xv6Arm.Args

open Fallible

/-- What these functions use of a process: its size, the user's stack pointer, and user memory. -/
structure Proc where
  sz : Word
  esp : Word
  mem : Word → UInt8

/-- A read outside of the process. -/
structure Outside where
  addr : Word
deriving DecidableEq

abbrev Fetch := Except Outside

/-- `MAXARG`. -/
def MAXARG : Nat := 32

/-! ## Reads -/

def Proc.byte (p : Proc) (a : Word) : Fetch UInt8 :=
  if a < p.sz then .ok (p.mem a) else .error ⟨a⟩

/-- The word whose bytes are at `a`. -/
def Proc.wordAt (p : Proc) (a : Word) : Word :=
  BitVec.ofNat 32 (Bytes.leValue (fun i => p.mem (a + BitVec.ofNat 32 i)) 4)

/-- `*(int*)a`. -/
def Proc.int (p : Proc) (a : Word) : Fetch Word := do
  let _ ← p.byte a
  let _ ← p.byte (a + 1)
  let _ ← p.byte (a + 2)
  let _ ← p.byte (a + 3)
  return p.wordAt a

/-! ## Fetching arguments -/

/-- `fetchint`: the int, if it returns 0. -/
def fetchint (p : Proc) (addr : Word) : Fetch (Option Word) :=
  if p.sz ≤ addr ∨ p.sz < addr + 4 then return none
  else do return some (← p.int addr)

/-- The loop of `fetchstr`, with the number of addresses from `s` to `ep`. -/
def scan (p : Proc) (pp : Word) : Nat → Word → Fetch Word
  | 0, _ => return -1
  | n + 1, s => do
      if (← p.byte s) = 0 then return s - pp
      else scan p pp n (s + 1)

/-- `fetchstr`: the int it returns.  The pointer that it sets is `addr`. -/
def fetchstr (p : Proc) (addr : Word) : Fetch Word :=
  if p.sz ≤ addr then return -1
  else scan p addr (p.sz - addr).toNat addr

/-- `argint`. -/
def argint (p : Proc) (n : Word) : Fetch (Option Word) := fetchint p (p.esp + 4 + 4 * n)

/-- `argptr`: the pointer, if it returns 0. -/
def argptr (p : Proc) (n size : Word) : Fetch (Option Word) := do
  match ← argint p n with
  | none => return none
  | some i => if p.sz ≤ i ∨ p.sz < i + size then return none else return some i

/-- `argstr`: the pointer, if it does not return a negative number. -/
def argstr (p : Proc) (n : Word) : Fetch (Option Word) := do
  match ← argint p n with
  | none => return none
  | some addr => return if (← fetchstr p addr).slt 0 then none else some addr

/-- The loop of `sys_exec`, with the number of elements of `argv` that are left. -/
def argLoop (p : Proc) (uargv : Word) : Nat → List Word → Fetch (Option (List Word))
  | 0, _ => return none
  | n + 1, argv => do
      match ← fetchint p (uargv + 4 * BitVec.ofNat 32 argv.length) with
      | none => return none
      | some uarg =>
          if uarg = 0 then return some argv
          else if (← fetchstr p uarg).slt 0 then return none
          else argLoop p uargv n (argv ++ [uarg])

/-- The array `argv` with its last elements 0. -/
def padded (argv : List Word) : List Word := argv ++ List.replicate (MAXARG - argv.length) 0

/-- `sys_exec`: the arguments with which it calls `exec`, or `none` if it returns -1 itself. -/
def sys_exec (p : Proc) : Fetch (Option (Word × List Word)) := do
  match ← argstr p 0 with
  | none => return none
  | some path =>
      match ← argint p 1 with
      | none => return none
      | some uargv => return (← argLoop p uargv MAXARG []).map fun argv => (path, padded argv)

/-! ## Words and strings in user memory -/

/-- The word at `a` lies inside of the process. -/
def Holds (p : Proc) (a w : Word) : Prop := a.toNat + 4 ≤ p.sz.toNat ∧ p.wordAt a = w

instance (p : Proc) (a w : Word) : Decidable (Holds p a w) := inferInstanceAs (Decidable (_ ∧ _))

/-- At `a` there is a string of `len` bytes that ends with a NUL inside of the process. -/
structure StringAt (p : Proc) (a : Word) (len : Nat) : Prop where
  inside : a.toNat + len < p.sz.toNat
  nul : p.mem (a + BitVec.ofNat 32 len) = 0
  no_nul : ∀ i, i < len → p.mem (a + BitVec.ofNat 32 i) ≠ 0

variable {p : Proc} {a w : Word} {len : Nat}

theorem Holds.unique {w' : Word} (h : Holds p a w) (h' : Holds p a w') : w = w' :=
  h.2.symm.trans h'.2

theorem StringAt.unique {len' : Nat} (h : StringAt p a len) (h' : StringAt p a len') :
    len = len' := by
  rcases Nat.lt_trichotomy len len' with hlt | heq | hgt
  · exact absurd h.nul (h'.no_nul len hlt)
  · exact heq
  · exact absurd h'.nul (h.no_nul len' hgt)

theorem byte_run (h : a.toNat < p.sz.toNat) : p.byte a = .ok (p.mem a) := if_pos h

theorem int_run (h : a.toNat + 4 ≤ p.sz.toNat) : p.int a = .ok (p.wordAt a) := by
  have hlt := p.sz.isLt
  unfold Proc.int
  rw [byte_run (by omega), ok_bind, byte_run (by bv_omega), ok_bind, byte_run (by bv_omega),
    ok_bind, byte_run (by bv_omega), ok_bind]
  rfl

/-- `fetchint` reads a word that lies inside of the process. -/
theorem fetchint_run (hsz : p.sz < KERNBASE) (a : Word) :
    fetchint p a = .ok (if a.toNat + 4 ≤ p.sz.toNat then some (p.wordAt a) else none) := by
  have hlt : p.sz.toNat < 3221225472 := hsz
  unfold fetchint
  by_cases hin : a.toNat + 4 ≤ p.sz.toNat
  · rw [if_neg (by bv_omega), if_pos hin, int_run hin]
    rfl
  · rw [if_pos (by bv_omega), if_neg hin]
    rfl

theorem fetchint_some (hsz : p.sz < KERNBASE) (h : Holds p a w) : fetchint p a = .ok (some w) := by
  rw [fetchint_run hsz, if_pos h.1, h.2]

theorem fetchint_none (hsz : p.sz < KERNBASE) (h : ¬ ∃ w, Holds p a w) :
    fetchint p a = .ok none := by
  rw [fetchint_run hsz, if_neg fun hin => h ⟨_, hin, rfl⟩]

theorem add_ofNat_succ (a : Word) (i : Nat) :
    a + BitVec.ofNat 32 (i + 1) = a + 1 + BitVec.ofNat 32 i := by
  bv_omega

theorem add_ofNat_zero (a : Word) : a + BitVec.ofNat 32 0 = a := by
  bv_omega

/-- A string is empty or goes on at the next address. -/
theorem stringAt_iff (ha : a.toNat < p.sz.toNat) : StringAt p a len ↔
    p.mem a = 0 ∧ len = 0 ∨ p.mem a ≠ 0 ∧ ∃ n, len = n + 1 ∧ StringAt p (a + 1) n := by
  have hlt := p.sz.isLt
  have hnext : (a + 1).toNat = a.toNat + 1 := by bv_omega
  constructor
  · intro h
    cases len with
    | zero => exact .inl ⟨add_ofNat_zero a ▸ h.nul, rfl⟩
    | succ n =>
        have hin := h.inside
        refine .inr ⟨add_ofNat_zero a ▸ h.no_nul 0 (by omega), n, rfl, by omega, ?_, fun i hi => ?_⟩
        · rw [← add_ofNat_succ]
          exact h.nul
        · rw [← add_ofNat_succ]
          exact h.no_nul (i + 1) (by omega)
  · rintro (⟨hzero, rfl⟩ | ⟨hne, n, rfl, h⟩)
    · exact ⟨ha, by rwa [add_ofNat_zero], fun i hi => by omega⟩
    · have hin := h.inside
      refine ⟨by omega, ?_, fun i hi => ?_⟩
      · rw [add_ofNat_succ]
        exact h.nul
      · cases i with
        | zero => rwa [add_ofNat_zero]
        | succ i =>
            rw [add_ofNat_succ]
            exact h.no_nul i (by omega)

/-- The loop of `fetchstr` finds the first NUL. -/
theorem scan_run (pp : Word) : ∀ {n : Nat} {s : Word}, s.toNat + n = p.sz.toNat →
    (∃ len, StringAt p s len ∧ scan p pp n s = .ok (s + BitVec.ofNat 32 len - pp)) ∨
    ((∀ len, ¬ StringAt p s len) ∧ scan p pp n s = .ok (-1))
  | 0, s, hn => by
      refine .inr ⟨fun len h => ?_, rfl⟩
      have hin := h.inside
      omega
  | n + 1, s, hn => by
      have hlt := p.sz.isLt
      have hin : s.toNat < p.sz.toNat := by omega
      have hstep : scan p pp (n + 1) s =
          if p.mem s = 0 then .ok (s - pp) else scan p pp n (s + 1) := by
        rw [scan, byte_run hin, ok_bind]
        rfl
      by_cases hzero : p.mem s = 0
      · refine .inl ⟨0, (stringAt_iff hin).mpr (.inl ⟨hzero, rfl⟩), ?_⟩
        rw [hstep, if_pos hzero, add_ofNat_zero]
      · rw [hstep, if_neg hzero]
        rcases scan_run pp (n := n) (s := s + 1) (by bv_omega) with ⟨len, hs, hrun⟩ | ⟨hnone, hrun⟩
        · refine .inl ⟨len + 1, (stringAt_iff hin).mpr (.inr ⟨hzero, len, rfl, hs⟩), ?_⟩
          rw [hrun, add_ofNat_succ]
        · refine .inr ⟨fun len h => ?_, hrun⟩
          rcases (stringAt_iff hin).mp h with ⟨hz, -⟩ | ⟨-, m, -, hs⟩
          · exact hzero hz
          · exact hnone m hs

/-- A string whose length is not negative as an int. -/
def Fetchable (p : Proc) (a : Word) : Prop := ∃ len, StringAt p a len ∧ len < 2 ^ 31

/-- `fetchstr` returns a number that is not negative exactly if there is such a string. -/
theorem fetchstr_run (p : Proc) (a : Word) :
    ∃ r, fetchstr p a = .ok r ∧ (r.slt 0 = false ↔ Fetchable p a) := by
  have hlt := p.sz.isLt
  have hneg : ((-1 : Word).slt 0 = false ↔ Fetchable p a) ↔ ¬ Fetchable p a :=
    ⟨fun h hf => absurd (h.mpr hf) (by decide), fun h => iff_of_false (by decide) h⟩
  unfold fetchstr
  by_cases hout : p.sz ≤ a
  · refine ⟨-1, if_pos hout, hneg.mpr ?_⟩
    rintro ⟨len, hs, -⟩
    have hin := hs.inside
    bv_omega
  · rw [if_neg hout]
    rcases scan_run (p := p) a (n := (p.sz - a).toNat) (s := a) (by bv_omega) with
      ⟨len, hs, hrun⟩ | ⟨hnone, hrun⟩
    · have hin := hs.inside
      have hval : (a + BitVec.ofNat 32 len - a).toNat = len := by bv_omega
      refine ⟨_, hrun, ?_⟩
      show BitVec.slt _ 0#32 = false ↔ _
      rw [BitVec.slt_zero_eq_msb, BitVec.msb_eq_false_iff_two_mul_lt, hval]
      constructor
      · intro h
        exact ⟨len, hs, by omega⟩
      · rintro ⟨len', hs', hshort⟩
        rw [hs.unique hs']
        omega
    · exact ⟨-1, hrun, hneg.mpr fun ⟨len, hs, _⟩ => hnone len hs⟩

/-! ## Pointers -/

/-- If `argptr(n, &p, size)` returns 0, `size` is not negative and the bytes from the pointer on
lie inside of the process. -/
def PointsInside (p : Proc) (n size : Word) : Prop :=
  ∀ i, argptr p n size = .ok (some i) →
    0 ≤ size.toInt ∧ ∀ b : Int, i.toNat ≤ b → b < i.toNat + size.toInt → 0 ≤ b ∧ b < p.sz.toNat

theorem argptr_run (hsz : p.sz < KERNBASE) (n size : Word) :
    argptr p n size = .ok
      (if (p.esp + 4 + 4 * n).toNat + 4 ≤ p.sz.toNat ∧ p.wordAt (p.esp + 4 + 4 * n) < p.sz ∧
          p.wordAt (p.esp + 4 + 4 * n) + size ≤ p.sz
        then some (p.wordAt (p.esp + 4 + 4 * n)) else none) := by
  rw [argptr, argint, fetchint_run hsz, ok_bind]
  by_cases hin : (p.esp + 4 + 4 * n).toNat + 4 ≤ p.sz.toNat
  · rw [if_pos hin]
    simp only
    generalize p.wordAt (p.esp + 4 + 4 * n) = i
    by_cases hok : i < p.sz ∧ i + size ≤ p.sz
    · rw [if_neg (by bv_omega), if_pos ⟨hin, hok⟩]
      rfl
    · rw [if_pos (by bv_omega), if_neg fun h => hok h.2]
      rfl
  · rw [if_neg hin, if_neg fun h => hin h.1]
    rfl

/-- The pointers that `argptr` accepts point inside exactly if, for those it accepts, `size` is not
negative and the sum of pointer and size does not wrap around. -/
theorem pointsInside_iff (hsz : p.sz < KERNBASE) (n size : Word) :
    PointsInside p n size ↔
      ((p.esp + 4 + 4 * n).toNat + 4 ≤ p.sz.toNat → p.wordAt (p.esp + 4 + 4 * n) < p.sz →
        p.wordAt (p.esp + 4 + 4 * n) + size ≤ p.sz →
        0 ≤ size.toInt ∧ (p.wordAt (p.esp + 4 + 4 * n)).toNat + size.toNat < 2 ^ 32) := by
  have hlt : p.sz.toNat < 3221225472 := hsz
  have hint := BitVec.toInt_eq_toNat_cond size
  unfold PointsInside
  rw [argptr_run hsz]
  generalize p.wordAt (p.esp + 4 + 4 * n) = i
  constructor
  · intro h hin hptr hend
    obtain ⟨hpos, hbytes⟩ := h i (by rw [if_pos ⟨hin, hptr, hend⟩])
    refine ⟨hpos, ?_⟩
    by_contra hwrap
    -- the last byte is past the end
    have hlast := hbytes (i.toNat + size.toInt - 1)
    split at hint
    · bv_omega
    · omega
  · intro h i' hi'
    by_cases hok : (p.esp + 4 + 4 * n).toNat + 4 ≤ p.sz.toNat ∧ i < p.sz ∧ i + size ≤ p.sz
    · rw [if_pos hok] at hi'
      cases hi'
      obtain ⟨hpos, hsum⟩ := h hok.1 hok.2.1 hok.2.2
      have hend := hok.2.2
      refine ⟨hpos, fun b hlow hhigh => ?_⟩
      split at hint
      · bv_omega
      · omega
    · rw [if_neg hok] at hi'
      cases hi'

/-- A process with three arguments on its stack: 0, 1 and -1. -/
def readProc : Proc :=
  { sz := 0x1000
    esp := 0x100
    mem := fun a => if a = 0x108 then 1 else if 0x10c ≤ a ∧ a < 0x110 then 0xff else 0 }

theorem pointsInside_iff_four : PointsInside readProc 1 4 :=
  (pointsInside_iff (by decide) 1 4).mpr fun _ _ _ => by decide

/-- The pointer and the size that `sys_read` fetches in this process. -/
theorem negative_not_pointsInside :
    argint readProc 2 = .ok (some (-1)) ∧ argptr readProc 1 (-1) = .ok (some 1) ∧
      ¬ PointsInside readProc 1 (-1) := by
  have hptr : argptr readProc 1 (-1) = .ok (some 1) := by decide
  refine ⟨by decide, hptr, fun h => ?_⟩
  exact absurd (h 1 hptr).1 (by decide)

/-! ## sys_exec -/

/-- From `a` on there are the pointers `args` and then a 0.  They point to memory with `S`. -/
def ArgVector (S : Word → Prop) (p : Proc) : Word → List Word → Prop
  | a, [] => Holds p a 0
  | a, w :: ws => Holds p a w ∧ w ≠ 0 ∧ S w ∧ ArgVector S p (a + 4) ws

/-- The arguments of `exec` on the stack: a path and a vector of fewer than `MAXARG` pointers, all
with `S`. -/
structure Request (S : Word → Prop) (p : Proc) (path : Word) (args : List Word) : Prop where
  path_arg : Holds p (p.esp + 4) path
  path_str : S path
  argv : ∃ uargv, Holds p (p.esp + 8) uargv ∧ ArgVector S p uargv args
  short : args.length < MAXARG

variable {S T : Word → Prop} {uargv path : Word} {args : List Word}

/-- What the pointers have in addition. -/
theorem argVector_and : ∀ {a : Word} {args : List Word},
    ArgVector S p a args ↔ ArgVector (fun _ => True) p a args ∧ ∀ w ∈ args, S w
  | a, [] => by simp [ArgVector]
  | a, w :: ws => by
      rw [ArgVector, ArgVector, argVector_and (a := a + 4), List.forall_mem_cons]
      exact ⟨fun ⟨h, hw, hS, hv, hall⟩ => ⟨⟨h, hw, trivial, hv⟩, hS, hall⟩,
        fun ⟨⟨h, hw, _, hv⟩, hS, hall⟩ => ⟨h, hw, hS, hv, hall⟩⟩

theorem ArgVector.unique : ∀ {a : Word} {args args' : List Word}, ArgVector S p a args →
    ArgVector T p a args' → args = args'
  | _, [], [], _, _ => rfl
  | _, [], _ :: _, h, h' => absurd (h'.1.unique h) h'.2.1
  | _, _ :: _, [], h, h' => absurd (h.1.unique h') h.2.1
  | _, w :: ws, w' :: ws', h, h' => by
      obtain rfl := h.1.unique h'.1
      rw [h.2.2.2.unique h'.2.2.2]

/-- A process makes one request at most. -/
theorem Request.unique {path' : Word} {args' : List Word} (h : Request S p path args)
    (h' : Request T p path' args') : path = path' ∧ args = args' := by
  obtain ⟨u, hu, hv⟩ := h.argv
  obtain ⟨u', hu', hv'⟩ := h'.argv
  obtain rfl := hu.unique hu'
  exact ⟨h.path_arg.unique h'.path_arg, hv.unique hv'⟩

theorem Request.mono (h : Request S p path args) (hS : ∀ w ∈ path :: args, T w) :
    Request T p path args := by
  obtain ⟨u, hu, hv⟩ := h.argv
  refine ⟨h.path_arg, hS path (List.mem_cons_self ..), ⟨u, hu, argVector_and.mpr ?_⟩, h.short⟩
  exact ⟨(argVector_and.mp hv).1, fun w hw => hS w (List.mem_cons_of_mem path hw)⟩

theorem Request.mem (h : Request S p path args) {w : Word} (hw : w ∈ path :: args) : S w := by
  obtain ⟨u, -, hv⟩ := h.argv
  cases List.mem_cons.mp hw with
  | inl he => exact he ▸ h.path_str
  | inr hargs => exact (argVector_and.mp hv).2 w hargs

/-- The loop of `sys_exec` from element `i` on. -/
theorem argLoop_run (hsz : p.sz < KERNBASE) (uargv : Word) : ∀ (n : Nat) (pre : List Word),
    (∃ args, ArgVector (Fetchable p) p (uargv + 4 * BitVec.ofNat 32 pre.length) args ∧
      args.length < n ∧ argLoop p uargv n pre = .ok (some (pre ++ args))) ∨
    ((∀ args, ArgVector (Fetchable p) p (uargv + 4 * BitVec.ofNat 32 pre.length) args →
      n ≤ args.length) ∧ argLoop p uargv n pre = .ok none)
  | 0, pre => .inr ⟨fun args _ => Nat.zero_le _, rfl⟩
  | n + 1, pre => by
      have hnext : ∀ w : Word, uargv + 4 * BitVec.ofNat 32 (pre ++ [w]).length =
          uargv + 4 * BitVec.ofNat 32 pre.length + 4 := by
        intro w
        rw [List.length_append, List.length_singleton]
        bv_omega
      rw [argLoop]
      generalize haddr : uargv + 4 * BitVec.ofNat 32 pre.length = a at hnext ⊢
      by_cases hin : ∃ w, Holds p a w
      · obtain ⟨w, hw⟩ := hin
        rw [fetchint_some hsz hw, ok_bind]
        simp only
        by_cases hzero : w = 0
        · subst hzero
          exact .inl ⟨[], hw, Nat.succ_pos n, by rw [if_pos rfl, List.append_nil]; rfl⟩
        · obtain ⟨r, hr, hiff⟩ := fetchstr_run p w
          rw [if_neg hzero, hr, ok_bind]
          cases hneg : r.slt 0 with
          | false =>
              rw [if_neg (by decide)]
              have hrest := argLoop_run hsz uargv n (pre ++ [w])
              rw [hnext w] at hrest
              rcases hrest with ⟨args, hv, hlen, hrun⟩ | ⟨hnone, hrun⟩
              · refine .inl ⟨w :: args, ⟨hw, hzero, hiff.mp hneg, hv⟩, ?_, ?_⟩
                · rw [List.length_cons]
                  omega
                · rw [hrun, List.append_assoc]
                  rfl
              · refine .inr ⟨fun args hv => ?_, hrun⟩
                cases args with
                | nil => exact absurd (hw.unique hv) hzero
                | cons w' ws =>
                    have hle := hnone ws hv.2.2.2
                    rw [List.length_cons]
                    omega
          | true =>
              refine .inr ⟨fun args hv => ?_, by rw [if_pos rfl]; rfl⟩
              cases args with
              | nil => exact absurd (hw.unique hv) hzero
              | cons w' ws =>
                  obtain rfl := hw.unique hv.1
                  rw [hiff.mpr hv.2.2.1] at hneg
                  cases hneg
      · refine .inr ⟨fun args hv => ?_, ?_⟩
        · cases args with
          | nil => exact absurd ⟨0, hv⟩ hin
          | cons w ws => exact absurd ⟨w, hv.1⟩ hin
        · rw [fetchint_none hsz hin, ok_bind]
          rfl

theorem argstr_run (hsz : p.sz < KERNBASE) :
    (∃ path, Holds p (p.esp + 4) path ∧ Fetchable p path ∧ argstr p 0 = .ok (some path)) ∨
    ((∀ path, Holds p (p.esp + 4) path → ¬ Fetchable p path) ∧ argstr p 0 = .ok none) := by
  have haddr : p.esp + 4 + 4 * 0 = p.esp + 4 := by bv_omega
  rw [argstr, argint, haddr]
  by_cases hin : ∃ w, Holds p (p.esp + 4) w
  · obtain ⟨path, hpath⟩ := hin
    obtain ⟨r, hr, hiff⟩ := fetchstr_run p path
    rw [fetchint_some hsz hpath, ok_bind]
    simp only [hr, ok_bind]
    cases hneg : r.slt 0 with
    | false => exact .inl ⟨path, hpath, hiff.mp hneg, rfl⟩
    | true =>
        refine .inr ⟨fun path' hpath' hf => ?_, rfl⟩
        rw [hiff.mpr (hpath'.unique hpath ▸ hf)] at hneg
        cases hneg
  · rw [fetchint_none hsz hin, ok_bind]
    exact .inr ⟨fun path hpath => absurd ⟨path, hpath⟩ hin, rfl⟩

/-- `sys_exec` calls `exec` with a request whose strings can be fetched. -/
theorem sys_exec_run (hsz : p.sz < KERNBASE) :
    (∃ path args, Request (Fetchable p) p path args ∧
      sys_exec p = .ok (some (path, padded args))) ∨
    ((∀ path args, ¬ Request (Fetchable p) p path args) ∧ sys_exec p = .ok none) := by
  have haddr : p.esp + 4 + 4 * 1 = p.esp + 8 := by bv_omega
  rw [sys_exec]
  rcases argstr_run hsz with ⟨path, hpath, hstr, hrun⟩ | ⟨hnone, hrun⟩
  · rw [hrun, ok_bind]
    simp only
    rw [argint, haddr]
    by_cases hin : ∃ w, Holds p (p.esp + 8) w
    · obtain ⟨uargv, hu⟩ := hin
      have hbase : uargv + 4 * BitVec.ofNat 32 ([] : List Word).length = uargv := by
        rw [List.length_nil]
        bv_omega
      have hloop := argLoop_run hsz uargv MAXARG []
      rw [hbase] at hloop
      rw [fetchint_some hsz hu, ok_bind]
      simp only
      rcases hloop with ⟨args, hv, hlen, hrun'⟩ | ⟨hlong, hrun'⟩
      · rw [hrun', ok_bind]
        exact .inl ⟨path, args, ⟨hpath, hstr, ⟨uargv, hu, hv⟩, hlen⟩, rfl⟩
      · rw [hrun', ok_bind]
        refine .inr ⟨fun path' args hreq => ?_, rfl⟩
        obtain ⟨u', hu', hv⟩ := hreq.argv
        obtain rfl := hu.unique hu'
        have hle := hlong args hv
        have hlt := hreq.short
        omega
    · rw [fetchint_none hsz hin, ok_bind]
      refine .inr ⟨fun path' args hreq => ?_, rfl⟩
      obtain ⟨u, hu, -⟩ := hreq.argv
      exact hin ⟨u, hu⟩
  · rw [hrun, ok_bind]
    exact .inr ⟨fun path args hreq => hnone path hreq.path_arg hreq.path_str, rfl⟩

/-- `sys_exec` reads inside of the process, calls `exec` exactly if there is a request of strings,
and then with this request. -/
structure Captures (p : Proc) : Prop where
  inside : ∃ r, sys_exec p = .ok r
  calls : ∀ path args, Request (fun a => ∃ len, StringAt p a len) p path args →
    sys_exec p = .ok (some (path, padded args))
  refuses : (∀ path args, ¬ Request (fun a => ∃ len, StringAt p a len) p path args) →
    sys_exec p = .ok none

/-- `sys_exec` does so exactly if no string of a request has a length that is negative as an
int. -/
theorem captures_iff (hsz : p.sz < KERNBASE) : Captures p ↔
    ∀ path args, Request (fun a => ∃ len, StringAt p a len) p path args →
      ∀ a ∈ path :: args, ∀ len, StringAt p a len → len < 2 ^ 31 := by
  have hstring : ∀ a, Fetchable p a → ∃ len, StringAt p a len := fun a ⟨len, hs, _⟩ => ⟨len, hs⟩
  constructor
  · intro hcap path args hreq a ha len hs
    have hcall := hcap.calls path args hreq
    rcases sys_exec_run hsz with ⟨path', args', hreq', -⟩ | ⟨-, hrun⟩
    · obtain ⟨rfl, rfl⟩ := hreq.unique hreq'
      obtain ⟨len', hs', hshort⟩ := hreq'.mem ha
      rwa [hs.unique hs']
    · rw [hrun] at hcall
      cases hcall
  · intro hshort
    rcases sys_exec_run hsz with ⟨path, args, hreq, hrun⟩ | ⟨hnone, hrun⟩
    · refine ⟨⟨_, hrun⟩, fun path' args' hreq' => ?_, fun hno => ?_⟩
      · obtain ⟨rfl, rfl⟩ := hreq.unique hreq'
        exact hrun
      · exact absurd (hreq.mono fun w hw => hstring w (hreq.mem hw)) (hno path args)
    · refine ⟨⟨_, hrun⟩, fun path args hreq => ?_, fun _ => hrun⟩
      refine absurd (hreq.mono fun w hw => ?_) (hnone path args)
      obtain ⟨len, hs⟩ := hreq.mem hw
      exact ⟨len, hs, hshort path args hreq w hw len hs⟩

/-- The bytes of a process that are not 0, by their addresses. -/
def bytesOf (bytes : List (Word × UInt8)) (a : Word) : UInt8 := (bytes.lookup a).getD 0

/-- A process that calls `exec("ls", argv)` with the strings `ls` and `-l` in `argv`. -/
def execProc : Proc :=
  { sz := 0x1000
    esp := 0x100
    mem := bytesOf
      [(0x105, 2), (0x109, 3), (0x200, 0x6c), (0x201, 0x73), (0x210, 0x2d), (0x211, 0x6c),
        (0x301, 2), (0x304, 0x10), (0x305, 2)] }

theorem execProc_ls : StringAt execProc 0x200 2 := ⟨by decide, by decide, by decide⟩

theorem execProc_option : StringAt execProc 0x210 2 := ⟨by decide, by decide, by decide⟩

theorem captures_iff_arguments :
    Captures execProc ∧ sys_exec execProc = .ok (some (0x200, padded [0x200, 0x210])) := by
  have hcap : Captures execProc := by
    refine (captures_iff (by decide)).mpr fun path args _ a _ len hs => ?_
    have hin := hs.inside
    have hsz : execProc.sz.toNat = 0x1000 := rfl
    omega
  have hend : Holds execProc (0x300 + 4 + 4) 0 := by decide
  have hargv : ArgVector (fun a => ∃ len, StringAt execProc a len) execProc 0x300 [0x200, 0x210] :=
    ⟨by decide, by decide, ⟨2, execProc_ls⟩, by decide, by decide, ⟨2, execProc_option⟩, hend⟩
  exact ⟨hcap, hcap.calls 0x200 _
    ⟨by decide, ⟨2, execProc_ls⟩, ⟨0x300, by decide, hargv⟩, by decide⟩⟩

/-- A process of 2.25 GB that calls `exec` with a path of `2 ^ 31` bytes. -/
def longProc : Proc :=
  { sz := 0x90000000
    esp := 0x80001000
    mem := fun a =>
      if a < 0x80000000 then 1 else if a = 0x80001009 then 0x20 else if a = 0x8000100b then 0x80
      else 0 }

theorem longProc_string : StringAt longProc 0 (2 ^ 31) := by
  refine ⟨by decide, by decide, fun i hi => ?_⟩
  have hlow : 0 + BitVec.ofNat 32 i < (0x80000000 : Word) := by bv_omega
  show (if _ then _ else _) ≠ _
  rw [if_pos hlow]
  decide

theorem longPath_not_captures : longProc.sz < KERNBASE ∧ ¬ Captures longProc := by
  have hsz : longProc.sz < KERNBASE := by decide
  have hpath : Holds longProc (longProc.esp + 4) 0 := ⟨by decide, by decide⟩
  have huargv : Holds longProc (longProc.esp + 8) 0x80002000 := ⟨by decide, by decide⟩
  have hnil : Holds longProc 0x80002000 0 := ⟨by decide, by decide⟩
  refine ⟨hsz, fun hcap => ?_⟩
  have hcall := hcap.calls 0 [] ⟨hpath, ⟨_, longProc_string⟩, ⟨_, huargv, hnil⟩, by decide⟩
  rcases sys_exec_run hsz with ⟨path, args, hreq, -⟩ | ⟨-, hrun⟩
  · obtain rfl := hpath.unique hreq.path_arg
    obtain ⟨len, hs, hshort⟩ := hreq.path_str
    have hlen := longProc_string.unique hs
    omega
  · rw [hrun] at hcall
    cases hcall

end Xv6Arm.Args
