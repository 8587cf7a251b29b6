import Xv6Arm.Vm.Setupkvm

/-!
# Address spaces

The map of the kernel's addresses that `setupkvm` builds, and what the calls of
`setupkvm` in one run do to each other.  There is one directory, the array
`kernel_pgdir`, so a call that succeeds after another one gives out the same
directory again.
-/

namespace Xv6Arm.Vm

open Fallible (ok_bind)

/-! ## The map of the kernel -/

/-- The kernel's map of addresses.  `vec` is the page for the vector table. -/
def kernelMap (t : Target) (vec va : Word) : Option Word :=
  if KERNBASE ≤ va ∧ va < KERNBASE + PHYSTOP then some (va - KERNBASE)
  else if PGROUNDDOWN va = t.UART0_BASE_V then some (t.UART0_BASE_P + (va - t.UART0_BASE_V))
  else if PGROUNDDOWN va = VEC_TBL then some (v2p vec + (va - VEC_TBL))
  else if PGROUNDDOWN va = VIC_BASE ∨ PGROUNDDOWN va = TIMER_BASE then some va
  else none

theorem PGROUNDDOWN_eq_iff {p : Word} (hp : Aligned p) (va : Word) :
    PGROUNDDOWN va = p ↔ va.toNat / 4096 = p.toNat / 4096 := by
  have hval := toNat_PGROUNDDOWN va
  unfold Aligned at hp
  constructor
  · rintro rfl
    omega
  · intro h
    apply BitVec.eq_of_toNat_eq
    omega

/-- The offset into a page. -/
theorem ofNat_offset {p va : Word} (hp : Aligned p) (h : va.toNat / 4096 = p.toNat / 4096) :
    BitVec.ofNat 32 (va.toNat % 4096) = va - p := by
  unfold Aligned at hp
  bv_omega

/-- The pages of the directory are those of the map. -/
theorem kernelPages_eq (t : Target) (vec va : Word) :
    ((kernelPages t vec (va.toNat / 4096)).map fun pa => pa + BitVec.ofNat 32 (va.toNat % 4096)) =
      kernelMap t vec va := by
  have huart : Aligned t.UART0_BASE_V ∧ 0xf2200 ≤ t.UART0_BASE_V.toNat / 4096 ∧
      t.UART0_BASE_V.toNat / 4096 < 0xf2300 := by
    cases t <;> decide
  have hvec : VEC_TBL.toNat / 4096 = 0xffff0 := by decide
  have hvic : VIC_BASE.toNat / 4096 = 0xfffef := by decide
  have htimer : TIMER_BASE.toNat / 4096 = 0x7e00b := by decide
  have hsame : ∀ p : Word, p + (va - p) = va := by
    intro p
    bv_omega
  have hram : (KERNBASE ≤ va ∧ va < KERNBASE + PHYSTOP) ↔
      0xc0000 ≤ va.toNat / 4096 ∧ va.toNat / 4096 < 0xc2000 := by
    show (3221225472 ≤ va.toNat ∧ va.toNat < 3254779904) ↔ _
    omega
  unfold kernelMap kernelPages
  simp only [hram, PGROUNDDOWN_eq_iff huart.1,
    PGROUNDDOWN_eq_iff (show Aligned VEC_TBL by decide),
    PGROUNDDOWN_eq_iff (show Aligned VIC_BASE by decide),
    PGROUNDDOWN_eq_iff (show Aligned TIMER_BASE by decide), hvec, hvic, htimer]
  by_cases h₁ : va.toNat / 4096 = 0x7e00b
  · rw [if_pos h₁, if_neg (by omega), if_neg (by omega), if_neg (by omega), if_pos (Or.inr h₁),
      Option.map_some, ofNat_offset (p := TIMER_BASE) (by decide) (h₁.trans htimer.symm), hsame]
  by_cases h₂ : va.toNat / 4096 = 0xfffef
  · rw [if_neg h₁, if_pos h₂, if_neg (by omega), if_neg (by omega), if_neg (by omega),
      if_pos (Or.inl h₂), Option.map_some,
      ofNat_offset (p := VIC_BASE) (by decide) (h₂.trans hvic.symm), hsame]
  by_cases h₃ : va.toNat / 4096 = 0xffff0
  · rw [if_neg h₁, if_neg h₂, if_pos h₃, if_neg (by omega), if_neg (by omega), if_pos h₃,
      Option.map_some, ofNat_offset (p := VEC_TBL) (by decide) (h₃.trans hvec.symm)]
  by_cases h₄ : va.toNat / 4096 = t.UART0_BASE_V.toNat / 4096
  · rw [if_neg h₁, if_neg h₂, if_neg h₃, if_pos h₄, if_neg (by omega), if_pos h₄,
      Option.map_some, ofNat_offset huart.1 h₄]
  by_cases h₅ : 0xc0000 ≤ va.toNat / 4096 ∧ va.toNat / 4096 < 0xc2000
  · rw [if_neg h₁, if_neg h₂, if_neg h₃, if_neg h₄, if_pos h₅, if_pos h₅, Option.map_some,
      ← BitVec.ofNat_add]
    apply congrArg some
    unfold KERNBASE
    bv_omega
  · rw [if_neg h₁, if_neg h₂, if_neg h₃, if_neg h₄, if_neg h₅, if_neg h₅, if_neg h₄, if_neg h₃,
      if_neg (by omega), Option.map_none]

/-- `EntryPageTable` maps the first 4 MB of the kernel as the kernel's map does. -/
theorem entryMmu_eq (t : Target) (vec : Word) {va : Word} (hlow : KERNBASE ≤ va)
    (hhigh : va < KERNBASE + ENTRYMEM) : entryMmu t va = kernelMap t vec va := by
  have hle : 3221225472 ≤ va.toNat := hlow
  have hlt : va.toNat < 3225419776 := hhigh
  have hoff : (v2p va).toNat < (v2p (p2v ENTRYMEM)).toNat := by
    rw [toNat_v2p hle]
    show _ < 4194304
    omega
  have hentry := (entryMmu_lowMapped t).kern (v2p va) hoff
  have hram : KERNBASE ≤ va ∧ va < KERNBASE + PHYSTOP :=
    ⟨hlow, show va.toNat < 3254779904 by omega⟩
  rw [p2v_v2p] at hentry
  rw [hentry, kernelMap, if_pos hram]
  rfl

/-- `setupkvm` under `EntryPageTable` returns.  If it does not return 0, the
directory maps every address as `kernelMap` does, with a page that was free for the
vector table, and the first 4 MB of the kernel as `EntryPageTable` does. -/
theorem setupkvm_translates {sym : Symbols} (t : Target) {k : Kmem} {l : List Word}
    (hsym : Linked sym) (hpages : LowPages sym (p2v ENTRYMEM) k l) :
    ∃ pgdir k₁, setupkvm (entryMmu t) t sym k = .ok (pgdir, k₁) ∧ (pgdir ≠ 0 →
      (kalloc k).1 ∈ l ∧
      (∀ va, translate k₁.mem (v2p pgdir) va = kernelMap t (kalloc k).1 va) ∧
      ∀ va, KERNBASE ≤ va → va < KERNBASE + ENTRYMEM →
        translate k₁.mem (v2p pgdir) va = entryMmu t va) := by
  cases setupkvm_run (t := t) hsym ⟨BitVec.le_refl _, by decide⟩ (entryMmu_lowMapped t) hpages with
  | inl hok =>
      obtain ⟨hlen, k₁, l₁, hrun, -, -, hmap⟩ := hok
      have hvec : (kalloc k).1 ∈ l := by
        cases l with
        | nil => cases hlen
        | cons p l =>
            rw [(kalloc_cons hpages.free).1]
            exact List.mem_cons_self ..
      have htranslate : ∀ va, translate k₁.mem (v2p sym.kernel_pgdir) va =
          kernelMap t (kalloc k).1 va := by
        intro va
        rw [hmap, kernelPages_eq]
      refine ⟨_, k₁, hrun, fun _ => ⟨hvec, htranslate, fun va hlow hhigh => ?_⟩⟩
      rw [htranslate, entryMmu_eq t (kalloc k).1 hlow hhigh]
  | inr hfail =>
      obtain ⟨-, k₁, hrun, -⟩ := hfail
      exact ⟨0, k₁, hrun, fun hne => absurd rfl hne⟩

/-! ## A boot -/

/-- A kernel that ends at `0xc0020000`. -/
def bootSymbols : Symbols := { data := 0xc0010000, kend := 0xc0020000, kernel_pgdir := 0xc0014000 }

theorem bootSymbols_linked : Linked bootSymbols :=
  ⟨by decide, by decide, by decide, by decide, by decide, by decide, by decide, by decide⟩

/-- The first pages after the kernel. -/
def bootPages : List Word := (List.range 100).map fun i => 0xc0020000 + BitVec.ofNat 32 (4096 * i)

theorem bootPage_toNat {i : Nat} (hi : i < 100) :
    ((0xc0020000 : Word) + BitVec.ofNat 32 (4096 * i)).toNat = 0xc0020000 + 4096 * i := by
  bv_omega

theorem bootPages_nodup : bootPages.Nodup := by
  refine List.pairwise_map.mpr (List.nodup_range.imp_of_mem fun {i j} hi hj hne heq => hne ?_)
  rw [List.mem_range] at hi hj
  have hval := congrArg BitVec.toNat heq
  rw [bootPage_toNat hi, bootPage_toNat hj] at hval
  omega

theorem bootPages_whole : ∀ p ∈ bootPages, WholePage bootSymbols.kend (p2v ENTRYMEM) p := by
  intro p hp
  obtain ⟨i, hi, rfl⟩ := List.mem_map.mp hp
  rw [List.mem_range] at hi
  unfold WholePage Aligned
  rw [BitVec.le_def, bootPage_toNat hi]
  show _ ∧ 3221356544 ≤ _ ∧ _ ≤ 3225419776
  omega

/-- After `kinit1` the free list has more than 100 pages. -/
theorem exists_lowPages :
    ∃ k l, LowPages bootSymbols (p2v ENTRYMEM) k l ∧ 100 ≤ l.length := by
  have hempty : Free { mem := fun _ => 5, freelist := 0 } [] := rfl
  obtain ⟨k, l, -, hfree, hnd, hmem, -⟩ := freerange_run bootSymbols.kend (p2v ENTRYMEM)
    (show KERNBASE ≤ bootSymbols.kend by decide) (BitVec.le_refl _) (by decide)
      (by decide) hempty List.nodup_nil (fun q hq => by cases hq) (fun q hq => by cases hq)
  refine ⟨k, l, ⟨hfree, hnd, fun p hp => ((hmem p).mp hp).resolve_left List.not_mem_nil⟩, ?_⟩
  have hsub : bootPages ⊆ l := fun p hp => (hmem p).mpr (Or.inr (bootPages_whole p hp))
  exact (List.subperm_of_subset bootPages_nodup hsub).length_le

theorem setupkvm_translates_boot :
    ∃ k l k₁, LowPages bootSymbols (p2v ENTRYMEM) k l ∧
      setupkvm (entryMmu .qemu) .qemu bootSymbols k = .ok (bootSymbols.kernel_pgdir, k₁) ∧
      ∀ va, translate k₁.mem (v2p bootSymbols.kernel_pgdir) va = kernelMap .qemu (kalloc k).1 va := by
  obtain ⟨k, l, hpages, hlen⟩ := exists_lowPages
  obtain ⟨pgdir, k₁, hrun, hmap⟩ := setupkvm_translates .qemu bootSymbols_linked hpages
  cases setupkvm_run (t := .qemu) bootSymbols_linked ⟨BitVec.le_refl _, by decide⟩
      (entryMmu_lowMapped .qemu) hpages with
  | inl hok =>
      obtain ⟨-, k₂, -, hrun₂, -⟩ := hok
      cases hrun.symm.trans hrun₂
      exact ⟨k, l, k₁, hpages, hrun, (hmap (by decide)).2.1⟩
  | inr hfail => omega

/-! ## Several calls -/

/-- Memory, and the directories that `setupkvm` has returned. -/
structure Spaces where
  kmem : Kmem
  returned : List Word

/-- A step of the kernel. -/
inductive Step
  /-- `setupkvm` is called under a translation. -/
  | setupkvm (mmu : Mmu)
  /-- Other code of the kernel runs, and leaves some memory. -/
  | other (k : Kmem)

/-- The steps.  A call that faults does not return. -/
def step (t : Target) (sym : Symbols) : Step → Spaces → Option Spaces
  | .setupkvm mmu, s =>
      match setupkvm mmu t sym s.kmem with
      | .ok (pgdir, k) =>
          some { kmem := k, returned := if pgdir = 0 then s.returned else pgdir :: s.returned }
      | .error _ => none
  | .other k, s => some { s with kmem := k }

/-- A call finds a free list of pages that the translation maps. -/
def Callable (sym : Symbols) (s : Spaces) : Step → Prop
  | .setupkvm mmu => ∃ vend l, Usable vend ∧ LowMapped (v2p vend).toNat mmu ∧
      LowPages sym vend s.kmem l
  | .other _ => True

/-- A call that succeeds returns a new directory, and leaves the translations of the
earlier ones as they are. -/
def Separate (t : Target) (sym : Symbols) (s : Spaces) : Step → Prop
  | .setupkvm mmu => ∀ pgdir k, setupkvm mmu t sym s.kmem = .ok (pgdir, k) → pgdir ≠ 0 →
      pgdir ∉ s.returned ∧ ∀ d ∈ s.returned, ∀ va,
        translate k.mem (v2p d) va = translate s.kmem.mem (v2p d) va
  | .other _ => True

/-- A call is made before any other call has succeeded, or finds fewer than 36 free
pages. -/
def First (s : Spaces) : Step → Prop
  | .setupkvm _ => s.returned = [] ∨ ∃ l, Free s.kmem l ∧ l.length < 36
  | .other _ => True

section Calls

variable {t : Target} {sym : Symbols} {s u : Spaces} {a : Step}

theorem setupkvm_returns {mmu : Mmu} {k k₁ : Kmem} {pgdir : Word}
    (h : setupkvm mmu t sym k = .ok (pgdir, k₁)) (hne : pgdir ≠ 0) : pgdir = sym.kernel_pgdir := by
  unfold setupkvm at h
  generalize memset _ _ _ _ = mem at h
  cases hmap : mapEntries mmu sym.kernel_pgdir (kmap t sym.data sym.kend (kalloc k).1)
      { mem := mem, freelist := (kalloc k).2.freelist } with
  | error e =>
      simp only [hmap] at h
      cases h
  | ok r =>
      simp only [hmap, ok_bind] at h
      obtain ⟨ok, k₂⟩ := r
      cases ok with
      | true =>
          cases h
          rfl
      | false =>
          cases h
          exact absurd rfl hne

/-- Every directory that is returned is `kernel_pgdir`. -/
theorem step_returned (h : ∀ d ∈ s.returned, d = sym.kernel_pgdir) (hs : step t sym a s = some u) :
    ∀ d ∈ u.returned, d = sym.kernel_pgdir := by
  cases a with
  | other k =>
      cases hs
      exact h
  | setupkvm mmu =>
      cases hrun : setupkvm mmu t sym s.kmem with
      | error e =>
          simp only [step, hrun] at hs
          cases hs
      | ok r =>
          obtain ⟨pgdir, k₁⟩ := r
          simp only [step, hrun, Option.some.injEq] at hs
          subst hs
          intro d hd
          by_cases hz : pgdir = 0
          · simp only [if_pos hz] at hd
            exact h d hd
          · simp only [if_neg hz, List.mem_cons] at hd
            exact hd.elim (fun he => he.trans (setupkvm_returns hrun hz)) (h d)

/-- What a step does with the directories returned before. -/
theorem separate_iff_first (hsym : Linked sym) (hcall : Callable sym s a)
    (h : ∀ d ∈ s.returned, d = sym.kernel_pgdir) : Separate t sym s a ↔ First s a := by
  cases a with
  | other k => exact Iff.rfl
  | setupkvm mmu =>
      obtain ⟨vend, l, hv, hmmu, hpages⟩ := hcall
      have hpgdir : sym.kernel_pgdir ≠ 0 := by
        intro hz
        have hlow := hsym.pgdir_low
        rw [hz] at hlow
        exact absurd hlow (by decide)
      cases setupkvm_run (t := t) hsym hv hmmu hpages with
      | inl hok =>
          obtain ⟨hlen, k₁, l₁, hrun, -⟩ := hok
          constructor
          · intro hsep
            refine Or.inl (List.eq_nil_iff_forall_not_mem.mpr fun d hd => ?_)
            exact (hsep _ _ hrun hpgdir).1 (h d hd ▸ hd)
          · rintro (hnil | ⟨l', hfree, hlt⟩)
            · intro pgdir k _ _
              rw [hnil]
              exact ⟨List.not_mem_nil, fun d hd => by cases hd⟩
            · rw [hfree.unique hpages.free] at hlt
              omega
      | inr hfail =>
          obtain ⟨hlen, k₁, hrun, -⟩ := hfail
          refine ⟨fun _ => Or.inr ⟨l, hpages.free, hlen⟩, fun _ pgdir k hrun' hne => ?_⟩
          cases hrun.symm.trans hrun'
          exact absurd rfl hne

end Calls

/-- The calls of a run give out separate address spaces exactly when each of them is
made before any other call has succeeded, or finds fewer than 36 free pages. -/
theorem separate_iff {t : Target} {sym : Symbols} {k : Kmem} {u : Spaces}
    {tr : List (Spaces × Step)} (hsym : Linked sym)
    (hrun : Runs.Run (step t sym) { kmem := k, returned := [] } tr u)
    (hcall : Runs.EveryStep (Callable sym) tr) :
    Runs.EveryStep (Separate t sym) tr ↔ Runs.EveryStep First tr := by
  have hinv := hrun.invariant (I := fun s => ∀ d ∈ s.returned, d = sym.kernel_pgdir)
    (fun s a u h hs => step_returned h hs) (fun d hd => by cases hd)
  exact forall₂_congr fun x hx => separate_iff_first hsym (hcall x hx) (hinv.1 x hx)

/-- A call of `setupkvm` after a boot. -/
theorem step_boot {s : Spaces} {l : List Word} (hpages : LowPages bootSymbols (p2v ENTRYMEM) s.kmem l)
    (hlen : 36 ≤ l.length) :
    ∃ u l₁, step .qemu bootSymbols (.setupkvm (entryMmu .qemu)) s = some u ∧
      Callable bootSymbols s (.setupkvm (entryMmu .qemu)) ∧
      u.returned = bootSymbols.kernel_pgdir :: s.returned ∧
      LowPages bootSymbols (p2v ENTRYMEM) u.kmem l₁ ∧ l₁.length + 36 = l.length := by
  have hv : Usable (p2v ENTRYMEM) := ⟨BitVec.le_refl _, by decide⟩
  cases setupkvm_run (t := .qemu) bootSymbols_linked hv (entryMmu_lowMapped .qemu) hpages with
  | inl hok =>
      obtain ⟨-, k₁, l₁, hrun, hpages₁, hlen₁, -⟩ := hok
      refine ⟨{ kmem := k₁, returned := bootSymbols.kernel_pgdir :: s.returned }, l₁, ?_,
        ⟨_, l, hv, entryMmu_lowMapped .qemu, hpages⟩, rfl, hpages₁, hlen₁⟩
      simp only [step, hrun]
      rfl
  | inr hfail => omega

theorem separate_iff_boot :
    ∃ k tr u, Runs.Run (step .qemu bootSymbols) { kmem := k, returned := [] } tr u ∧
      tr.map Prod.snd = [.setupkvm (entryMmu .qemu)] ∧
      (Runs.EveryStep (Separate .qemu bootSymbols) tr ↔ Runs.EveryStep First tr) := by
  obtain ⟨k, l, hpages, hlen⟩ := exists_lowPages
  obtain ⟨u, -, hs, hcall, -⟩ := step_boot (s := { kmem := k, returned := [] }) hpages (by omega)
  have hrun := Runs.Run.cons hs (Runs.Run.nil u)
  refine ⟨k, _, u, hrun, rfl, separate_iff bootSymbols_linked hrun ?_⟩
  exact Runs.everyStep_cons.mpr ⟨hcall, fun x hx => by cases hx⟩

/-- The second of two calls gives out the directory of the first. -/
theorem secondCall_not_separate :
    ∃ k tr u, Runs.Run (step .qemu bootSymbols) { kmem := k, returned := [] } tr u ∧
      tr.map Prod.snd = [.setupkvm (entryMmu .qemu), .setupkvm (entryMmu .qemu)] ∧
      Runs.EveryStep (Callable bootSymbols) tr ∧ Linked bootSymbols ∧
      u.returned = [bootSymbols.kernel_pgdir, bootSymbols.kernel_pgdir] ∧
      ¬ Runs.EveryStep (Separate .qemu bootSymbols) tr := by
  obtain ⟨k, l, hpages, hlen⟩ := exists_lowPages
  obtain ⟨s₁, l₁, hs₁, hcall₁, hret₁, hpages₁, hlen₁⟩ :=
    step_boot (s := { kmem := k, returned := [] }) hpages (by omega)
  obtain ⟨s₂, l₂, hs₂, hcall₂, hret₂, -, -⟩ := step_boot hpages₁ (by omega)
  have hrun := Runs.Run.cons hs₁ (Runs.Run.cons hs₂ (Runs.Run.nil s₂))
  refine ⟨k, _, s₂, hrun, rfl, ?_, bootSymbols_linked, by rw [hret₂, hret₁], fun hsep => ?_⟩
  · exact Runs.everyStep_cons.mpr ⟨hcall₁, Runs.everyStep_cons.mpr ⟨hcall₂, fun x hx => by cases hx⟩⟩
  have hsecond := (Runs.everyStep_cons.mp (Runs.everyStep_cons.mp hsep).2).1
  have hdirs : ∀ d ∈ s₁.returned, d = bootSymbols.kernel_pgdir := by
    rw [hret₁]
    simp
  cases (separate_iff_first bootSymbols_linked hcall₂ hdirs).mp hsecond with
  | inl hnil =>
      rw [hret₁] at hnil
      cases hnil
  | inr hfew =>
      obtain ⟨l', hfree, hlt⟩ := hfew
      rw [hfree.unique hpages₁.free] at hlt
      omega

end Xv6Arm.Vm
