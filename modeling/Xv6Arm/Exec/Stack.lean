import Xv6Arm.Exec.Load

/-!
# The arguments of a program

`exec` after its loop: it grows the process by two pages, takes the user's access to the
lower one away, and pushes the argument strings and then the words of `ustack` onto the
upper one.  Nothing tests whether they fit.  A copy that leaves the page touches the page
below it or, if the stack pointer wraps around, the kernel's memory, and `copyout` fails.
-/

namespace Xv6Arm.Exec

open Runs Bytes Args

/-- A NUL-terminated string, without its NUL.  `argv` ends with four bytes that are 0, so a string
is not all of memory. -/
structure CString where
  bytes : List UInt8
  no_nul : 0 ∉ bytes
  fits : bytes.length + 4 ≤ 2 ^ 32

/-- User access to a process of `sz` bytes with a guard page below its stack. -/
def userAccess (sz a : Word) : Bool :=
  a < sz ∧ ¬ (sz - 2 * PGSIZE ≤ a ∧ a < sz - PGSIZE)

/-- `copyout(pgdir, va, p, len)`: the memory after it, if it returns 0. -/
def copyout (access : Word → Bool) (mem : Word → UInt8) (va : Word) (p : List UInt8) :
    Option (Word → UInt8) :=
  if (List.range p.length).all fun i => access (va + BitVec.ofNat 32 i) then
    some fun a => (p[(a - va).toNat]?).getD (mem a)
  else none

/-- The loop of `exec` over the arguments, with the elements of `ustack` so far. -/
def pushArgs (sz : Word) :
    List CString → List Word → Word → (Word → UInt8) → Option (List Word × Word × (Word → UInt8))
  | [], args, sp, mem => some (args, sp, mem)
  | s :: argv, args, sp, mem =>
      if MAXARG ≤ args.length then none
      else do
        let sp := (sp - BitVec.ofNat 32 (s.bytes.length + 1)) &&& ~~~3
        let mem ← copyout (userAccess sz) mem sp (s.bytes ++ [0])
        pushArgs sz argv (args ++ [sp]) sp mem

/-- The bytes of a word. -/
def wordBytes (w : Word) : List UInt8 := (List.range 4).map (leByte w.toNat)

/-- The words of `ustack`, when the stack pointer is `sp`. -/
def ustack (args : List Word) (sp : Word) : List Word :=
  [0xffffffff, BitVec.ofNat 32 args.length, sp - (BitVec.ofNat 32 args.length + 1) * 4] ++ args ++
    [0]

/-- The stack of a process of `sz` bytes: the process that `exec` makes. -/
def buildStack (sz : Word) (argv : List CString) (mem : Word → UInt8) : Option Proc := do
  let (args, sp, mem) ← pushArgs sz argv [] sz mem
  let sp' := sp - (3 + BitVec.ofNat 32 args.length + 1) * 4
  let mem ← copyout (userAccess sz) mem sp' ((ustack args sp).flatMap wordBytes)
  return { sz := sz, esp := sp', mem := mem }

variable {N : Nat}

/-- `exec` after the loop: the process, if it returns 0.  `mem` is the memory of the process after
the loop, and `oom` says whether there are no two pages for the stack. -/
def finish (file : Buf N) (oom : Bool) (s : Load) (argv : List CString) (mem : Word → UInt8) :
    Option Proc :=
  if s.bad = true ∨ s.i < phnum file then none
  else
    let sz := allocuvm oom (PGROUNDUP s.sz) (PGROUNDUP s.sz + 2 * PGSIZE)
    if sz = 0 then none else buildStack sz argv mem

/-! ## copyout -/

/-- The bytes are in memory. -/
def Stored (mem : Word → UInt8) (va : Word) (p : List UInt8) : Prop :=
  ∀ i (h : i < p.length), mem (va + BitVec.ofNat 32 i) = p[i]

variable {sz sp va : Word} {mem mem₁ : Word → UInt8} {p : List UInt8}

theorem copyout_run {access : Word → Bool} (hlen : p.length ≤ 2 ^ 32)
    (h : copyout access mem va p = some mem₁) :
    (∀ i, i < p.length → access (va + BitVec.ofNat 32 i) = true) ∧ Stored mem₁ va p ∧
      ∀ a, p.length ≤ (a - va).toNat → mem₁ a = mem a := by
  unfold copyout at h
  by_cases hall : ((List.range p.length).all fun i => access (va + BitVec.ofNat 32 i)) = true
  · rw [if_pos hall] at h
    have hmem := Option.some.inj h
    refine ⟨fun i hi => ?_, fun i hi => ?_, fun a ha => ?_⟩
    · exact List.all_eq_true.mp hall i (List.mem_range.mpr hi)
    · have hoff : (va + BitVec.ofNat 32 i - va).toNat = i := by bv_omega
      rw [← hmem]
      simp only [hoff, List.getElem?_eq_getElem hi, Option.getD_some]
    · rw [← hmem]
      simp only [List.getElem?_eq_none ha, Option.getD_none]
  · rw [if_neg hall] at h
    cases h

/-- The size of a process with a stack: a whole number of pages, below the kernel. -/
structure StackSize (sz : Word) : Prop where
  aligned : Aligned sz
  low : 8192 ≤ sz.toNat
  high : sz < KERNBASE

/-- The stack pointer is aligned and in the page of the stack. -/
structure InStack (sz sp : Word) : Prop where
  aligned : sp.toNat % 4 = 0
  low : sz.toNat ≤ sp.toNat + 4096
  high : sp.toNat ≤ sz.toNat

theorem userAccess_iff (hsz : StackSize sz) (a : Word) : userAccess sz a = true ↔
    a.toNat < sz.toNat ∧ ¬ (sz.toNat ≤ a.toNat + 8192 ∧ a.toNat + 4096 < sz.toNat) := by
  have hlow := hsz.low
  unfold userAccess PGSIZE
  rw [decide_eq_true_iff]
  bv_omega

/-- Bytes that are pushed below the stack pointer, and that the user has access to, are in the page
of the stack. -/
theorem push_inStack (hsz : StackSize sz) (hsp : InStack sz sp) {n : Nat} (hpos : 0 < n)
    (hn : n + 3 ≤ 2 ^ 32) (hva : va.toNat = (sp - BitVec.ofNat 32 n).toNat / 4 * 4)
    (hacc : ∀ i, i < n → userAccess sz (va + BitVec.ofNat 32 i) = true) :
    InStack sz va ∧ va.toNat + n ≤ sp.toNat := by
  have hlow := hsz.low
  have hhigh : sz.toNat < 3221225472 := hsz.high
  obtain ⟨hsp4, hsplow, hsphigh⟩ := hsp
  have hacc' : ∀ i, i < n → va.toNat + i < 2 ^ 32 → va.toNat + i < sz.toNat ∧
      ¬ (sz.toNat ≤ va.toNat + i + 8192 ∧ va.toNat + i + 4096 < sz.toNat) := by
    intro i hi hlt
    have h := (userAccess_iff hsz _).mp (hacc i hi)
    rwa [show (va + BitVec.ofNat 32 i).toNat = va.toNat + i by bv_omega] at h
  by_cases hwrap : sp.toNat < n
  · -- the stack pointer wraps around, and the last byte of memory is the kernel's
    have hsub : (sp - BitVec.ofNat 32 n).toNat = 2 ^ 32 + sp.toNat - n := by bv_omega
    have htop := hacc' (2 ^ 32 - 1 - va.toNat) (by omega) (by omega)
    omega
  · have hsub : (sp - BitVec.ofNat 32 n).toNat = sp.toNat - n := by bv_omega
    have hpage : sz.toNat ≤ va.toNat + 4096 := by
      by_contra hbelow
      -- the first byte that is pushed, or the first one of the guard page
      have hfirst := hacc' 0 hpos (by omega)
      have hguard := hacc' (sz.toNat - 8192 - va.toNat)
      omega
    exact ⟨⟨by omega, hpage, by omega⟩, by omega⟩

/-! ## The strings -/

/-- The strings are in memory at the pointers, each below the one before it, from `sp` down to
`sp'`. -/
inductive Pushed (mem : Word → UInt8) : List CString → List Word → Word → Word → Prop
  | nil (sp : Word) : Pushed mem [] [] sp sp
  | cons {s : CString} {argv : List CString} {q : Word} {ptrs : List Word} {sp sp' : Word} :
      q.toNat + (s.bytes.length + 1) ≤ sp.toNat → Stored mem q (s.bytes ++ [0]) →
      Pushed mem argv ptrs q sp' → Pushed mem (s :: argv) (q :: ptrs) sp sp'

/-- The addresses and the sizes of the strings. -/
def stringBlocks (ptrs : List Word) (argv : List CString) : List (Nat × Nat) :=
  List.zipWith (fun q s => (q.toNat, s.bytes.length + 1)) ptrs argv

/-- The address is in none of the blocks. -/
def OffBlocks (bs : List (Nat × Nat)) (a : Nat) : Prop := ∀ b ∈ bs, a < b.1 ∨ b.1 + b.2 ≤ a

section Pushed

variable {argv : List CString} {ptrs : List Word} {sp' : Word}

theorem Pushed.length_eq (h : Pushed mem argv ptrs sp sp') : ptrs.length = argv.length := by
  induction h with
  | nil sp => rfl
  | cons _ _ _ ih => rw [List.length_cons, List.length_cons, ih]

theorem Pushed.bounds (h : Pushed mem argv ptrs sp sp') : sp'.toNat ≤ sp.toNat ∧
    ∀ b ∈ stringBlocks ptrs argv, sp'.toNat ≤ b.1 ∧ b.1 + b.2 ≤ sp.toNat := by
  induction h with
  | nil sp => exact ⟨Nat.le_refl _, fun b hb => by cases hb⟩
  | @cons s argv q ptrs sp sp' hq _ _ ih =>
      refine ⟨by omega, fun b hb => ?_⟩
      cases List.mem_cons.mp hb with
      | inl hnew =>
          rw [hnew]
          exact ⟨ih.1, hq⟩
      | inr hold =>
          have hb' := ih.2 b hold
          omega

theorem Pushed.strings (h : Pushed mem argv ptrs sp sp') :
    List.Forall₂ (fun q s => Stored mem q (s.bytes ++ [0])) ptrs argv := by
  induction h with
  | nil sp => exact .nil
  | cons _ hs _ ih => exact .cons hs ih

theorem Pushed.pairwise (h : Pushed mem argv ptrs sp sp') :
    (stringBlocks ptrs argv).Pairwise fun b c => c.1 + c.2 ≤ b.1 := by
  induction h with
  | nil sp => exact .nil
  | cons _ _ hrest ih => exact .cons (fun b hb => (hrest.bounds.2 b hb).2) ih

/-- A memory that agrees between the stack pointers. -/
theorem Pushed.congr (h : Pushed mem argv ptrs sp sp')
    (hm : ∀ a : Word, sp'.toNat ≤ a.toNat → mem₁ a = mem a) : Pushed mem₁ argv ptrs sp sp' := by
  induction h with
  | nil sp => exact .nil sp
  | @cons s argv q ptrs sp sp' hq hs hrest ih =>
      refine .cons hq (fun i hi => ?_) (ih hm)
      have hle := hrest.bounds.1
      have hlt := sp.isLt
      have hbound : i < s.bytes.length + 1 := by simpa using hi
      rw [hm _ (by bv_omega), hs i hi]

end Pushed

/-- The loop over the arguments. -/
theorem pushArgs_run (hsz : StackSize sz) : ∀ {argv : List CString} {args args' : List Word}
    {sp sp' : Word} {mem mem' : Word → UInt8}, InStack sz sp → args.length ≤ MAXARG →
    pushArgs sz argv args sp mem = some (args', sp', mem') →
    ∃ ptrs, args' = args ++ ptrs ∧ args'.length ≤ MAXARG ∧ InStack sz sp' ∧
      Pushed mem' argv ptrs sp sp' ∧
      ∀ a : Word, OffBlocks (stringBlocks ptrs argv) a.toNat → mem' a = mem a
  | [], args, _, sp, _, mem, _, hsp, hargs, h => by
      cases h
      exact ⟨[], (List.append_nil args).symm, hargs, hsp, .nil sp, fun a _ => rfl⟩
  | s :: argv, args, args', sp, sp', mem, mem', hsp, hargs, h => by
      rw [pushArgs] at h
      by_cases hmax : MAXARG ≤ args.length
      · rw [if_pos hmax] at h
        cases h
      rw [if_neg hmax] at h
      obtain ⟨mem₁, hcopy, hrest⟩ := Option.bind_eq_some_iff.mp h
      have hlen : (s.bytes ++ [0]).length = s.bytes.length + 1 := by simp
      have hfits := s.fits
      obtain ⟨hacc, hstored, hframe⟩ := copyout_run (by omega) hcopy
      rw [hlen] at hacc hframe
      have hmask := toNat_and_not_low (sp - BitVec.ofNat 32 (s.bytes.length + 1)) 2
      rw [show ~~~(BitVec.ofNat 32 (2 ^ 2 - 1)) = ~~~(3 : Word) from rfl] at hmask
      generalize (sp - BitVec.ofNat 32 (s.bytes.length + 1)) &&& ~~~(3 : Word) = q at *
      obtain ⟨hq, hle⟩ := push_inStack hsz hsp (Nat.succ_pos _) (by omega) hmask hacc
      obtain ⟨ptrs, hargs', hmax', hsp', hpushed, hoff⟩ := pushArgs_run hsz hq
        (by rw [List.length_append, List.length_singleton]; omega) hrest
      refine ⟨q :: ptrs, by rw [hargs', List.append_assoc]; rfl, hmax', hsp', ?_, fun a ha => ?_⟩
      · -- the strings that follow are below this one
        refine .cons hle (fun i hi => ?_) hpushed
        have hbelow := hpushed.bounds.2
        rw [hoff _ fun b hb => .inr ?_, hstored i hi]
        have hb' := hbelow b hb
        have hlt := sp.isLt
        bv_omega
      · obtain ⟨hnew, hold⟩ := List.forall_mem_cons.mp ha
        rw [hoff a hold]
        apply hframe
        bv_omega

/-! ## The words -/

@[simp] theorem length_wordBytes (w : Word) : (wordBytes w).length = 4 := by simp [wordBytes]

theorem length_flatMap_wordBytes : ∀ ws : List Word, (ws.flatMap wordBytes).length = 4 * ws.length
  | [] => rfl
  | w :: ws => by
      rw [List.flatMap_cons, List.length_append, length_wordBytes, length_flatMap_wordBytes ws,
        List.length_cons]
      omega

/-- The words whose bytes are in memory. -/
theorem wordAt_of_stored {r : Proc} : ∀ {ws : List Word} {va : Word},
    Stored r.mem va (ws.flatMap wordBytes) → ∀ i (h : i < ws.length),
      r.wordAt (va + BitVec.ofNat 32 (4 * i)) = ws[i]
  | w :: ws, va, hst, 0, h => by
      have hbyte : ∀ k, k < 4 → r.mem (va + BitVec.ofNat 32 (4 * 0) + BitVec.ofNat 32 k) =
          leByte w.toNat k := by
        intro k hk
        have hget := hst k (by rw [length_flatMap_wordBytes, List.length_cons]; omega)
        rw [show va + BitVec.ofNat 32 (4 * 0) = va by bv_omega, hget]
        simp only [List.flatMap_cons]
        rw [List.getElem_append_left (by rw [length_wordBytes]; exact hk)]
        simp [wordBytes]
      rw [Proc.wordAt, leValue_congr hbyte, leValue_leByte, show 256 ^ 4 = 2 ^ 32 by decide,
        Nat.mod_eq_of_lt w.isLt, List.getElem_cons_zero, BitVec.ofNat_toNat, BitVec.setWidth_eq]
  | w :: ws, va, hst, i + 1, h => by
      have hrest : Stored r.mem (va + 4) (ws.flatMap wordBytes) := by
        intro k hk
        have hget := hst (k + 4) (by
          rw [List.flatMap_cons, List.length_append, length_wordBytes]
          omega)
        rw [show va + 4 + BitVec.ofNat 32 k = va + BitVec.ofNat 32 (k + 4) by bv_omega, hget]
        simp only [List.flatMap_cons]
        rw [List.getElem_append_right (by rw [length_wordBytes]; omega)]
        simp
      have hword := wordAt_of_stored hrest i (by simpa using h)
      rw [List.getElem_cons_succ, ← hword]
      congr 1
      bv_omega

/-! ## The stack -/

/-- The words at the stack pointer. -/
def stackWords (esp : Word) (ptrs : List Word) : List Word :=
  [0xffffffff, BitVec.ofNat 32 ptrs.length, esp + 12] ++ ptrs ++ [0]

/-- What is on the stack: the words, and the strings. -/
def stackBlocks (esp : Word) (ptrs : List Word) (argv : List CString) : List (Nat × Nat) :=
  (esp.toNat, 4 * (ptrs.length + 4)) :: stringBlocks ptrs argv

/-- The stack of a process that starts with the arguments `argv`.  Before, its memory was `mem`. -/
structure ArgStack (argv : List CString) (mem : Word → UInt8) (r : Proc) (ptrs : List Word) :
    Prop where
  argc_le : argv.length ≤ MAXARG
  length_eq : ptrs.length = argv.length
  aligned : r.esp.toNat % 4 = 0
  words : ∀ i (h : i < (stackWords r.esp ptrs).length),
    r.wordAt (r.esp + BitVec.ofNat 32 (4 * i)) = (stackWords r.esp ptrs)[i]
  strings : List.Forall₂ (fun q s => Stored r.mem q (s.bytes ++ [0])) ptrs argv
  apart : (stackBlocks r.esp ptrs argv).Pairwise fun b c => b.1 + b.2 ≤ c.1 ∨ c.1 + c.2 ≤ b.1
  in_page : ∀ b ∈ stackBlocks r.esp ptrs argv,
    r.sz.toNat - 4096 ≤ b.1 ∧ b.1 + b.2 ≤ r.sz.toNat
  frame : ∀ a : Word, OffBlocks (stackBlocks r.esp ptrs argv) a.toNat → r.mem a = mem a

variable {argv : List CString} {r : Proc} {file : Buf N}

theorem length_ustack (args : List Word) (sp : Word) : (ustack args sp).length = args.length + 4 := by
  simp only [ustack, List.length_append, List.length_cons, List.length_nil]
  omega

/-- What `sp -= (3+argc+1) * 4` takes off. -/
theorem esp_eq (n : Nat) (sp : Word) :
    sp - (3 + BitVec.ofNat 32 n + 1) * 4 = sp - BitVec.ofNat 32 (4 * (n + 4)) := by
  bv_omega

/-- The pointer to `argv` is 12 bytes above. -/
theorem argv_eq (n : Nat) (sp : Word) :
    sp - (BitVec.ofNat 32 n + 1) * 4 = sp - (3 + BitVec.ofNat 32 n + 1) * 4 + 12 := by
  bv_omega

/-- The words are aligned as the stack pointer was. -/
theorem esp_aligned {sp : Word} (hsp : sp.toNat % 4 = 0) (n : Nat) :
    (sp - BitVec.ofNat 32 (4 * (n + 4))).toNat % 4 = 0 := by
  bv_omega

theorem buildStack_run (hsz : StackSize sz) (h : buildStack sz argv mem = some r) :
    r.sz = sz ∧ ∃ ptrs, ArgStack argv mem r ptrs := by
  have hstart : InStack sz sz := by
    have hal := hsz.aligned
    unfold Aligned at hal
    exact ⟨by omega, by omega, by omega⟩
  unfold buildStack at h
  obtain ⟨⟨args, sp, mem₁⟩, hpush, h⟩ := Option.bind_eq_some_iff.mp h
  obtain ⟨mem₂, hcopy, h⟩ := Option.bind_eq_some_iff.mp h
  obtain ⟨ptrs, hargs, hmax, hsp, hpushed, hoff⟩ :=
    pushArgs_run hsz hstart (Nat.zero_le _) hpush
  rw [List.nil_append] at hargs
  subst hargs
  have hmax : args.length ≤ 32 := hmax
  have hlen : ((ustack args sp).flatMap wordBytes).length = 4 * (args.length + 4) := by
    rw [length_flatMap_wordBytes, length_ustack]
  obtain ⟨hacc, hstored, hframe⟩ := copyout_run (by omega) hcopy
  rw [hlen] at hacc hframe
  have hwords : ustack args sp = stackWords (sp - (3 + BitVec.ofNat 32 args.length + 1) * 4) args := by
    rw [ustack, argv_eq, stackWords]
  have hmask : (sp - (3 + BitVec.ofNat 32 args.length + 1) * 4).toNat =
      (sp - BitVec.ofNat 32 (4 * (args.length + 4))).toNat / 4 * 4 := by
    rw [esp_eq]
    have haligned := esp_aligned hsp.aligned args.length
    omega
  obtain ⟨hin, hle⟩ := push_inStack hsz hsp (by omega) (by omega) hmask hacc
  cases h
  rw [hwords] at hstored
  generalize sp - (3 + BitVec.ofNat 32 args.length + 1) * 4 = esp at *
  have hbounds := hpushed.bounds
  have hlow := hin.low
  refine ⟨rfl, args, ?_, hpushed.length_eq, hin.aligned, wordAt_of_stored hstored,
    (hpushed.congr fun a ha => hframe a (by bv_omega)).strings, ?_, ?_, fun a ha => ?_⟩
  · rw [← hpushed.length_eq]
    exact hmax
  · refine .cons (fun b hb => .inl ?_) (hpushed.pairwise.imp .inr)
    have hb' := hbounds.2 b hb
    show esp.toNat + 4 * (args.length + 4) ≤ b.1
    omega
  · refine List.forall_mem_cons.mpr ⟨?_, fun b hb => ?_⟩
    · show sz.toNat - 4096 ≤ esp.toNat ∧ esp.toNat + 4 * (args.length + 4) ≤ sz.toNat
      omega
    · have hb' := hbounds.2 b hb
      have hsplow := hsp.low
      show sz.toNat - 4096 ≤ b.1 ∧ b.1 + b.2 ≤ sz.toNat
      omega
  · obtain ⟨hnew, hold⟩ := List.forall_mem_cons.mp ha
    have hnew : a.toNat < esp.toNat ∨ esp.toNat + 4 * (args.length + 4) ≤ a.toNat := hnew
    rw [← hoff a hold]
    exact hframe a (by bv_omega)

/-- The size of a process whose stack could be allocated. -/
theorem stackSize_of_alloc {oom : Bool} (hold : sz < KERNBASE)
    (h : allocuvm oom (PGROUNDUP sz) (PGROUNDUP sz + 2 * PGSIZE) ≠ 0) :
    StackSize (allocuvm oom (PGROUNDUP sz) (PGROUNDUP sz + 2 * PGSIZE)) := by
  have hlt : sz.toNat < 3221225472 := hold
  have hup := toNat_PGROUNDUP (a := sz) (by omega)
  generalize PGROUNDUP sz = up at *
  have hnew : (up + 2 * PGSIZE).toNat = up.toNat + 8192 := by
    rw [PGSIZE]
    bv_omega
  have hup' : up < KERNBASE := by
    by_contra hge
    apply h
    rw [allocuvm, if_pos]
    rw [BitVec.le_def, hnew]
    rw [BitVec.lt_def] at hge
    omega
  obtain ⟨hbelow, hmax⟩ := allocuvm_run hup' h
  rw [hnew] at hmax
  refine ⟨?_, by omega, hbelow⟩
  unfold Aligned
  omega

theorem run_sz_lt {s₀ u : Load} (hstart : start file = some s₀) {tr : List (Load × Outcome)}
    (hr : Run (step file) s₀ tr u) : u.sz < KERNBASE := by
  refine hr.invariant_last (I := fun s => s.sz < KERNBASE) (fun s o t hs hst => ?_)
    (start_calls hstart).1
  rcases step_cases hst with ⟨-, rfl⟩ | ⟨-, rfl⟩
  · exact hs
  · exact (segment_cases o _ hs).1

/-- If `exec` returns 0, the stack of the new process holds the arguments. -/
theorem exec_argStack {s₀ u : Load} (hstart : start file = some s₀) {tr : List (Load × Outcome)}
    (hr : Run (step file) s₀ tr u) {oom : Bool} (h : finish file oom u argv mem = some r) :
    ∃ ptrs, ArgStack argv mem r ptrs := by
  unfold finish at h
  by_cases hover : u.bad = true ∨ u.i < phnum file
  · rw [if_pos hover] at h
    cases h
  · rw [if_neg hover] at h
    simp only at h
    by_cases hzero : allocuvm oom (PGROUNDUP u.sz) (PGROUNDUP u.sz + 2 * PGSIZE) = 0
    · rw [if_pos hzero] at h
      cases h
    · rw [if_neg hzero] at h
      exact (buildStack_run (stackSize_of_alloc (run_sz_lt hstart hr) hzero) h).2

/-- A program of one page with the arguments `ls` and `a`. -/
theorem exec_argStack_ls : ∃ tr u r ptrs, Run (step (oneSegment 0 0x10 0x1000)) first tr u ∧
    finish (oneSegment 0 0x10 0x1000) false u
      [⟨[108, 115], by decide, by decide⟩, ⟨[97], by decide, by decide⟩] (fun _ => 0) = some r ∧
    ArgStack [⟨[108, 115], by decide, by decide⟩, ⟨[97], by decide, by decide⟩] (fun _ => 0) r
      ptrs := by
  have hstart : start (oneSegment 0 0x10 0x1000) = some first := by decide
  have hstep : step (oneSegment 0 0x10 0x1000) ⟨false, true⟩ first =
      some ⟨1, 84, 0x1000, [⟨0, 0, 0x10, 0x1000⟩], false⟩ := by decide
  have hr := Run.cons hstep (.nil _)
  have hsome : (finish (oneSegment 0 0x10 0x1000) false
      ⟨1, 84, 0x1000, [⟨0, 0, 0x10, 0x1000⟩], false⟩
      [⟨[108, 115], by decide, by decide⟩, ⟨[97], by decide, by decide⟩]
      (fun _ => 0)).isSome = true := by decide
  obtain ⟨r, hret⟩ := Option.isSome_iff_exists.mp hsome
  obtain ⟨ptrs, hstack⟩ := exec_argStack hstart hr hret
  exact ⟨_, _, r, ptrs, hr, hret, hstack⟩

end Xv6Arm.Exec
