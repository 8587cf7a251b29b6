import Xv6Arm.Vm.Spaces

/-!
# What a call of setupkvm leaves

`setupkvm` gives the entry of `kmap` for the vector table a page of its own, but
computes the end of the entry from the UART's.  The other entries get what they ask
for.  A call that runs out of pages keeps those it has taken.
-/

namespace Xv6Arm.Vm

variable {mmu : Mmu} {t : Target} {sym : Symbols} {vend : Word} {k : Kmem} {l : List Word}

/-! ## The entries of kmap -/

/-- A directory maps the bytes an entry asks for, which do not wrap around.  The entry for the
vector table asks for one page. -/
structure Granted (mem : Mem) (dir : Word) (e : KmapEntry) : Prop where
  no_wrap : ∀ o, o < (e.phys_end - e.phys_start).toNat → e.virt.toNat + o < 2 ^ 32
  maps : ∀ o, o < (e.phys_end - e.phys_start).toNat →
    translate mem dir (e.virt + BitVec.ofNat 32 o) = some (e.phys_start + BitVec.ofNat 32 o)
  vector : e.virt = VEC_TBL → e.phys_end - e.phys_start = PGSIZE

/-- A call of `setupkvm` that does not fail maps what the entry asks for. -/
def Honours (mmu : Mmu) (t : Target) (sym : Symbols) (k : Kmem) (e : KmapEntry) : Prop :=
  ∀ pgdir k₁, setupkvm mmu t sym k = .ok (pgdir, k₁) → pgdir ≠ 0 → Granted k₁.mem (v2p pgdir) e

/-- The directory `dir` maps the pages of `kernelPages`. -/
def HasKernelPages (mem : Mem) (dir : Word) (t : Target) (vec : Word) : Prop :=
  ∀ va, translate mem dir va =
    (kernelPages t vec (va.toNat / 4096)).map fun pa => pa + BitVec.ofNat 32 (va.toNat % 4096)

section Entries

variable {mem : Mem} {dir vec : Word} {e : KmapEntry}

/-- An entry of the direct map. -/
theorem granted_direct (h : HasKernelPages mem dir t vec) (hlow : 0xc0000000 ≤ e.virt.toNat)
    (hphys : e.phys_start = v2p e.virt)
    (hhigh : e.virt.toNat + (e.phys_end - e.phys_start).toNat ≤ 0xc2000000) :
    Granted mem dir e := by
  have huart : 0xf2200 ≤ t.UART0_BASE_V.toNat / 4096 := by
    cases t <;> decide
  refine ⟨fun o ho => by omega, fun o ho => ?_, fun hvec => ?_⟩
  · have hva : (e.virt + BitVec.ofNat 32 o).toNat = e.virt.toNat + o := by bv_omega
    rw [h, hva]
    unfold kernelPages
    rw [if_neg (by omega), if_neg (by omega), if_neg (by omega), if_neg (by omega),
      if_pos (by omega), Option.map_some, ← BitVec.ofNat_add, hphys, v2p, KERNBASE]
    apply congrArg some
    bv_omega
  · rw [hvec] at hhigh
    exact absurd hhigh (by rw [show VEC_TBL.toNat = 0xffff0000 from rfl]; omega)

/-- An entry for one page. -/
theorem granted_page (h : HasKernelPages mem dir t vec) (hvirt : Aligned e.virt)
    (hsize : e.phys_end - e.phys_start = PGSIZE)
    (hpage : kernelPages t vec (e.virt.toNat / 4096) = some e.phys_start) : Granted mem dir e := by
  have hbytes : (e.phys_end - e.phys_start).toNat = 4096 := by
    rw [hsize]
    rfl
  have hlt := e.virt.isLt
  unfold Aligned at hvirt
  refine ⟨fun o ho => by omega, fun o ho => ?_, fun _ => hsize⟩
  have hva : (e.virt + BitVec.ofNat 32 o).toNat = e.virt.toNat + o := by bv_omega
  rw [h, hva, show (e.virt.toNat + o) / 4096 = e.virt.toNat / 4096 by omega, hpage,
    Option.map_some, show (e.virt.toNat + o) % 4096 = o by omega]

/-- The entry for the vector table asks for more than a page. -/
theorem not_granted_vector (hvec : (v2p vec).toNat < 0x2000000) :
    ¬ Granted mem dir ⟨VEC_TBL, v2p vec, t.UART0_BASE_P + 0x1000, PTE_W⟩ := by
  intro h
  have hsize : t.UART0_BASE_P + 0x1000 - v2p vec = PGSIZE := h.vector rfl
  have hstart : v2p vec = t.UART0_BASE_P := by
    rw [PGSIZE] at hsize
    bv_omega
  rw [hstart] at hvec
  cases t <;> exact absurd hvec (by decide)

/-- All entries but the one for the vector table get what they ask for. -/
theorem granted_iff (hsym : Linked sym) (h : HasKernelPages mem dir t vec)
    (hvec : (v2p vec).toNat < 0x2000000) (he : e ∈ kmap t sym.data sym.kend vec) :
    Granted mem dir e ↔ e.virt ≠ VEC_TBL := by
  obtain ⟨hdata, hkend, htop, hda, hka⟩ := hsym.bounds
  have hnv : ∀ {a : Word}, a.toNat < 0xffff0000 → a ≠ VEC_TBL := by
    rintro a ha rfl
    exact absurd ha (by decide)
  have hdv := toNat_v2p (a := sym.data) (by omega)
  have hkv := toNat_v2p (a := sym.kend) (by omega)
  simp only [kmap, List.mem_cons, List.not_mem_nil, or_false] at he
  rcases he with rfl | rfl | rfl | rfl | rfl | rfl | rfl | rfl
  · exact iff_of_true (granted_direct h (by decide) (by decide) (by decide)) (by decide)
  · refine iff_of_true (granted_direct h (show 0xc0000000 ≤ KERNLINK.toNat by decide) rfl ?_)
      (show KERNLINK ≠ VEC_TBL by decide)
    show (0xc0008000 : Nat) + (v2p sym.data - v2p KERNLINK).toNat ≤ 0xc2000000
    rw [show v2p KERNLINK = 0x8000 from rfl]
    bv_omega
  · refine iff_of_true (granted_direct h (by show _ ≤ sym.data.toNat; omega) rfl ?_)
      (hnv (by show sym.data.toNat < _; omega))
    show sym.data.toNat + (v2p sym.kend - v2p sym.data).toNat ≤ 0xc2000000
    bv_omega
  · refine iff_of_true (granted_direct h (by show _ ≤ sym.kend.toNat; omega) rfl ?_)
      (hnv (by show sym.kend.toNat < _; omega))
    show sym.kend.toNat + (PHYSTOP - v2p sym.kend).toNat ≤ 0xc2000000
    rw [show PHYSTOP = 0x2000000 from rfl]
    bv_omega
  · refine iff_of_true (granted_page h ?_ ?_ ?_) ?_
    · show Aligned t.UART0_BASE_V
      cases t <;> decide
    · show t.UART0_BASE_P + 0x1000 - t.UART0_BASE_P = PGSIZE
      cases t <;> decide
    · show kernelPages t vec (t.UART0_BASE_V.toNat / 4096) = some t.UART0_BASE_P
      have hne : t.UART0_BASE_V.toNat / 4096 ≠ 0x7e00b ∧ t.UART0_BASE_V.toNat / 4096 ≠ 0xfffef ∧
          t.UART0_BASE_V.toNat / 4096 ≠ 0xffff0 := by
        cases t <;> decide
      rw [kernelPages, if_neg hne.1, if_neg hne.2.1, if_neg hne.2.2, if_pos rfl]
    · show t.UART0_BASE_V ≠ VEC_TBL
      cases t <;> decide
  · exact iff_of_false (not_granted_vector hvec) fun hne => hne rfl
  · have hpage : kernelPages t vec (VIC_BASE.toNat / 4096) = some VIC_BASE := by
      rw [show VIC_BASE.toNat / 4096 = 0xfffef by decide, kernelPages, if_neg (by decide), if_pos rfl]
    exact iff_of_true (granted_page h (by decide) (by decide) hpage) (by decide)
  · have hpage : kernelPages t vec (TIMER_BASE.toNat / 4096) = some TIMER_BASE := by
      rw [show TIMER_BASE.toNat / 4096 = 0x7e00b by decide, kernelPages, if_pos rfl]
    exact iff_of_true (granted_page h (by decide) (by decide) hpage) (by decide)

end Entries

/-- The page for the vector table, when there is one. -/
theorem LowPages.vec_lt (hsym : Linked sym) (hv : Usable vend) (h : LowPages sym vend k l)
    (hl : l ≠ []) : (v2p (kalloc k).1).toNat < 0x2000000 := by
  cases l with
  | nil => exact absurd rfl hl
  | cons p l =>
    have hp := h.physPage hsym hv (List.mem_cons_self ..)
    have htop := hp.le_top
    have hend := (hsym.region hv).top_le
    rw [(kalloc_cons h.free).1]
    show (v2p p).toNat < _
    omega

/-- A call of `setupkvm` maps what an entry of `kmap` asks for exactly if the call fails or the
entry is not the one for the vector table. -/
theorem honours_iff (hsym : Linked sym) (hv : Usable vend) (hmmu : LowMapped (v2p vend).toNat mmu)
    (h : LowPages sym vend k l) {e : KmapEntry} (he : e ∈ kmap t sym.data sym.kend (kalloc k).1) :
    Honours mmu t sym k e ↔ l.length < 36 ∨ e.virt ≠ VEC_TBL := by
  cases setupkvm_run (t := t) hsym hv hmmu h with
  | inl hok =>
    obtain ⟨hlen, k₁, l₁, hrun, -, -, hmap⟩ := hok
    have hvec := h.vec_lt hsym hv (by rintro rfl; cases hlen)
    have hgranted := granted_iff hsym hmap hvec he
    have hne : sym.kernel_pgdir ≠ 0 := by
      intro hzero
      have hlow := hsym.pgdir_low
      rw [hzero] at hlow
      exact absurd hlow (by decide)
    constructor
    · intro hall
      exact .inr (hgranted.mp (hall _ k₁ hrun hne))
    · rintro (hshort | hentry) pgdir k₂ hrun₂ -
      · omega
      · cases hrun.symm.trans hrun₂
        exact hgranted.mpr hentry
  | inr hfail =>
    obtain ⟨hlen, k₁, hrun, -⟩ := hfail
    refine iff_of_true (fun pgdir k₂ hrun₂ hne => ?_) (.inl hlen)
    cases hrun.symm.trans hrun₂
    exact absurd rfl hne

/-- The entry for the start of memory. -/
theorem honours_iff_boot :
    ∃ k l, LowPages bootSymbols (p2v ENTRYMEM) k l ∧
      Honours (entryMmu .qemu) .qemu bootSymbols k ⟨KERNBASE, 0, EXTMEM, PTE_W⟩ := by
  obtain ⟨k, l, hpages, -⟩ := exists_lowPages
  refine ⟨k, l, hpages, ?_⟩
  refine (honours_iff bootSymbols_linked ⟨BitVec.le_refl _, by decide⟩ (entryMmu_lowMapped .qemu)
    hpages (List.mem_cons_self ..)).mpr (.inr ?_)
  show KERNBASE ≠ VEC_TBL
  decide

/-- With the pages that `kinit1` gives, the entry for the vector table does not get what it asks
for. -/
theorem bootVector_not_honoured :
    ∃ k l, LowPages bootSymbols (p2v ENTRYMEM) k l ∧
      ¬ ∀ e ∈ kmap .qemu bootSymbols.data bootSymbols.kend (kalloc k).1,
        Honours (entryMmu .qemu) .qemu bootSymbols k e := by
  obtain ⟨k, l, hpages, hlen⟩ := exists_lowPages
  refine ⟨k, l, hpages, fun hall => ?_⟩
  cases setupkvm_run (t := .qemu) bootSymbols_linked ⟨BitVec.le_refl _, by decide⟩
      (entryMmu_lowMapped .qemu) hpages with
  | inl hok =>
    obtain ⟨-, k₁, -, hrun, -⟩ := hok
    have hvec := hpages.vec_lt bootSymbols_linked ⟨BitVec.le_refl _, by decide⟩
      (by rintro rfl; cases hlen)
    refine not_granted_vector (t := .qemu) hvec (hall _ ?_ _ k₁ hrun (by decide))
    exact List.mem_of_getElem? (i := 5) rfl
  | inr hfail => omega

/-! ## Calls that fail -/

/-- If the call fails, the pages that are free after it are those that were free before. -/
def TakesNothing (mmu : Mmu) (t : Target) (sym : Symbols) (k : Kmem) : Prop :=
  ∀ k₁, setupkvm mmu t sym k = .ok (0, k₁) →
    ∀ l l₁, Free k l → Free k₁ l₁ → ∀ p, p ∈ l₁ ↔ p ∈ l

/-- A call of `setupkvm` that fails leaves no page free, so it takes nothing exactly if there was
nothing to take, or if it does not fail. -/
theorem takesNothing_iff (hsym : Linked sym) (hv : Usable vend)
    (hmmu : LowMapped (v2p vend).toNat mmu) (h : LowPages sym vend k l) :
    TakesNothing mmu t sym k ↔ l = [] ∨ 36 ≤ l.length := by
  cases setupkvm_run (t := t) hsym hv hmmu h with
  | inl hok =>
    obtain ⟨hlen, k₁, l₁, hrun, -⟩ := hok
    refine iff_of_true (fun k₂ hrun₂ => ?_) (.inr hlen)
    have hlow := hsym.pgdir_low
    have hzero : sym.kernel_pgdir = 0 := congrArg Prod.fst (Except.ok.inj (hrun.symm.trans hrun₂))
    rw [hzero] at hlow
    exact absurd hlow (by decide)
  | inr hfail =>
    obtain ⟨hlen, k₁, hrun, hnone⟩ := hfail
    constructor
    · intro hall
      have hsame := hall k₁ hrun l [] h.free hnone.free
      exact .inl (List.eq_nil_iff_forall_not_mem.mpr fun p hp =>
        absurd ((hsame p).mpr hp) List.not_mem_nil)
    · rintro (rfl | hlong) k₂ hrun₂ l₀ l₁ hl₀ hl₁ p
      · cases hrun.symm.trans hrun₂
        rw [hl₀.unique h.free, hl₁.unique hnone.free]
      · omega

/-- A free list of one page. -/
theorem exists_onePage :
    ∃ k l, LowPages bootSymbols (p2v ENTRYMEM) k l ∧ l ≠ [] ∧ l.length < 36 := by
  have hempty : Free { mem := fun _ => 5, freelist := 0 } [] := rfl
  obtain ⟨k, l, -, hfree, hnd, hmem, -⟩ := freerange_run bootSymbols.kend 0xc0021000
    (show KERNBASE ≤ bootSymbols.kend by decide) (BitVec.le_refl _) (by decide) (by decide) hempty
    List.nodup_nil (fun q hq => by cases hq) (fun q hq => by cases hq)
  have honly : ∀ p ∈ l, p = 0xc0020000 := by
    intro p hp
    obtain ⟨-, hlow, hhigh⟩ := ((hmem p).mp hp).resolve_left List.not_mem_nil
    have hlow : 0xc0020000 ≤ p.toNat := hlow
    have hhigh : p.toNat + 4096 ≤ 0xc0021000 := hhigh
    bv_omega
  refine ⟨k, l, ⟨hfree, hnd, fun p hp => ?_⟩, ?_, ?_⟩
  · rw [honly p hp]
    exact ⟨by decide, by decide, by decide⟩
  · rintro rfl
    exact List.not_mem_nil ((hmem 0xc0020000).mpr (.inr ⟨by decide, by decide, by decide⟩))
  · have hsub : l ⊆ [0xc0020000] := fun p hp => List.mem_singleton.mpr (honly p hp)
    have hle := (List.subperm_of_subset hnd hsub).length_le
    rw [List.length_singleton] at hle
    omega

theorem takesNothing_iff_boot :
    ∃ k l, LowPages bootSymbols (p2v ENTRYMEM) k l ∧
      TakesNothing (entryMmu .qemu) .qemu bootSymbols k := by
  obtain ⟨k, l, hpages, hlen⟩ := exists_lowPages
  exact ⟨k, l, hpages, (takesNothing_iff bootSymbols_linked ⟨BitVec.le_refl _, by decide⟩
    (entryMmu_lowMapped .qemu) hpages).mpr (.inr (by omega))⟩

/-- With one free page the call takes it for the vector table and fails. -/
theorem onePage_not_takesNothing :
    ∃ k l, LowPages bootSymbols (p2v ENTRYMEM) k l ∧
      ¬ TakesNothing (entryMmu .qemu) .qemu bootSymbols k := by
  obtain ⟨k, l, hpages, hne, hlen⟩ := exists_onePage
  refine ⟨k, l, hpages, fun hall => ?_⟩
  cases setupkvm_run (t := .qemu) bootSymbols_linked ⟨BitVec.le_refl _, by decide⟩
      (entryMmu_lowMapped .qemu) hpages with
  | inl hok => omega
  | inr hfail =>
    obtain ⟨-, k₁, hrun, hnone⟩ := hfail
    have hsame := hall k₁ hrun l [] hpages.free hnone.free
    exact hne (List.eq_nil_iff_forall_not_mem.mpr fun p hp =>
      absurd ((hsame p).mpr hp) List.not_mem_nil)

end Xv6Arm.Vm
