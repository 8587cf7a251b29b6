import Mathlib.Data.List.Perm.Subperm
import Xv6Arm.Mem.Allocator
import Xv6Arm.Vm.Map

/-!
# The kernel address space

What `setupkvm` builds, for every place of the kernel's symbols and every free
list of pages that the translation in force maps.  It needs 36 free pages: one for the vector
table, and one for each of the 35 page tables.  With fewer it returns 0.
-/

namespace Xv6Arm.Vm

/-! ## EntryPageTable -/

/-- The walk through one of the first four sections. -/
theorem translateBy_section (mem : Mem) {n : Nat} (hn : n < 4) (va : Word) :
    translateBy mem (sectionPde (BitVec.ofNat 32 n)) va =
      some (BitVec.ofNat 32 (n * 2 ^ 20 + va.toNat % 2 ^ 20)) := by
  have hoff : (va &&& 0xfffff).toNat = va.toNat % 2 ^ 20 := toNat_and_low va (j := 20) (by decide)
  have hlt : va.toNat % 2 ^ 20 < 2 ^ 20 := Nat.mod_lt _ (by decide)
  have hbase : sectionPde (BitVec.ofNat 32 n) &&& 0xfff00000 = BitVec.ofNat 32 (n * 2 ^ 20) ∧
      sectionPde (BitVec.ofNat 32 n) &&& 3 = 2 ∧
      sectionPde (BitVec.ofNat 32 n) &&& 0x40000 = 0 := by
    revert hn n
    decide
  obtain ⟨hb, h3, hs⟩ := hbase
  unfold translateBy
  rw [h3, if_neg (by decide), if_pos rfl, if_pos hs, hb]
  apply congrArg some
  apply BitVec.eq_of_toNat_eq
  rw [BitVec.toNat_or, hoff]
  generalize va.toNat % 2 ^ 20 = o at hlt ⊢
  rw [BitVec.toNat_ofNat, BitVec.toNat_ofNat, Nat.mod_eq_of_lt (by omega),
    Nat.mod_eq_of_lt (by omega), Nat.mul_comm, Nat.two_pow_add_eq_or_of_lt hlt]

theorem EntryPageTable_low (t : Target) : ∀ n, n < 4 →
    EntryPageTable t (BitVec.ofNat 32 n) = sectionPde (BitVec.ofNat 32 n) ∧
      EntryPageTable t (BitVec.ofNat 32 (0xc00 + n)) = sectionPde (BitVec.ofNat 32 n) := by
  cases t <;> decide

/-- `EntryPageTable` maps the first 4 MB twice. -/
theorem entryMmu_lowMapped (t : Target) : LowMapped (v2p (p2v ENTRYMEM)).toNat (entryMmu t) where
  phys a ha := by
    rw [show (v2p (p2v ENTRYMEM)).toNat = 0x400000 by decide] at ha
    have hpdx := toNat_PDX a
    have hn : pdx a < 4 := by
      unfold pdx
      omega
    have hidx : PDX a = BitVec.ofNat 32 (pdx a) := by bv_omega
    rw [entryMmu, hidx, (EntryPageTable_low t _ hn).1, translateBy_section _ hn]
    unfold pdx
    apply congrArg some
    bv_omega
  kern a ha := by
    rw [show (v2p (p2v ENTRYMEM)).toNat = 0x400000 by decide] at ha
    have hval : (p2v a).toNat = 0xc0000000 + a.toNat := by
      unfold p2v KERNBASE
      bv_omega
    have hpdx := toNat_PDX (p2v a)
    have hn : pdx a < 4 := by
      unfold pdx
      omega
    have hsum : pdx (p2v a) = 0xc00 + pdx a := by
      unfold pdx
      omega
    have hidx : PDX (p2v a) = BitVec.ofNat 32 (0xc00 + pdx a) := by bv_omega
    rw [entryMmu, hidx, (EntryPageTable_low t _ hn).2, translateBy_section _ hn]
    unfold pdx
    apply congrArg some
    bv_omega

/-! ## The symbols -/

/-- What the linker script promises: `data` and `end` are page aligned and lie in
this order between the start of the kernel and 4 MB, and the directory is aligned
to 16 KB and lies in the kernel. -/
structure Linked (sym : Symbols) : Prop where
  data_aligned : Aligned sym.data
  kend_aligned : Aligned sym.kend
  data_low : KERNLINK < sym.data
  data_kend : sym.data < sym.kend
  kend_high : sym.kend < p2v ENTRYMEM
  pgdir_aligned : sym.kernel_pgdir.toNat % 16384 = 0
  pgdir_low : KERNLINK ≤ sym.kernel_pgdir
  pgdir_high : sym.kernel_pgdir.toNat + 16384 ≤ sym.kend.toNat

/-- Memory for free pages ends at `vend`, after 4 MB and before `PHYSTOP`. -/
structure Usable (vend : Word) : Prop where
  low : p2v ENTRYMEM ≤ vend
  high : vend ≤ p2v PHYSTOP

/-- The free list has distinct pages, all between the kernel and `vend`. -/
structure LowPages (sym : Symbols) (vend : Word) (k : Kmem) (l : List Word) : Prop where
  free : Free k l
  nodup : l.Nodup
  page : ∀ p ∈ l, WholePage sym.kend vend p

/-! ## The pages of kmap -/

section Pages

variable {sym : Symbols} {t : Target} {vec : Word}

/-- The values of the symbols as numbers. -/
theorem Linked.bounds (h : Linked sym) :
    0xc0008000 < sym.data.toNat ∧ sym.data.toNat < sym.kend.toNat ∧ sym.kend.toNat < 0xc0400000 ∧
      sym.data.toNat % 4096 = 0 ∧ sym.kend.toNat % 4096 = 0 :=
  ⟨h.data_low, h.data_kend, h.kend_high, h.data_aligned, h.kend_aligned⟩

/-- The page that `setupkvm` takes for the vector table lies below `PHYSTOP`, or
`kalloc` returned 0. -/
def VecPage (vec : Word) : Prop :=
  Aligned (v2p vec) ∧ ((v2p vec).toNat < 0x2000000 ∨ v2p vec = 0x40000000)

/-- The directory as a map of pages. -/
def kernelPages (t : Target) (vec : Word) (n : Nat) : Option Word :=
  if n = 0x7e00b then some TIMER_BASE
  else if n = 0xfffef then some VIC_BASE
  else if n = 0xffff0 then some (v2p vec)
  else if n = t.UART0_BASE_V.toNat / 4096 then some t.UART0_BASE_P
  else if 0xc0000 ≤ n ∧ n < 0xc2000 then some (BitVec.ofNat 32 (4096 * (n - 0xc0000)))
  else none

/-- An entry that maps one page. -/
theorem overlay_single {n c m : Nat} {pa : Word} {f : Nat → Option Word} (hn : n = m) (hc : c = 0)
    (x : Nat) : overlay n c pa f x = if x = m then some pa else f x := by
  rw [hn, hc, overlay_zero]
  by_cases hx : x = m
  · rw [hx, Function.update_self, if_pos rfl]
  · rw [Function.update_of_ne hx, if_neg hx]

/-- An entry of the direct map, over entries that map the pages before it. -/
theorem overlay_direct {n c m : Nat} {pa : Word} {f : Nat → Option Word} (hn : 0xc0000 ≤ n)
    (hpa : pa = BitVec.ofNat 32 (4096 * (n - 0xc0000))) (hm : n + c + 1 = m)
    (hf : ∀ x, f x = if 0xc0000 ≤ x ∧ x < n then some (BitVec.ofNat 32 (4096 * (x - 0xc0000)))
      else none) (x : Nat) :
    overlay n c pa f x = if 0xc0000 ≤ x ∧ x < m then some (BitVec.ofNat 32 (4096 * (x - 0xc0000)))
      else none := by
  unfold overlay
  by_cases hx : n ≤ x ∧ x ≤ n + c
  · rw [if_pos hx, if_pos (by omega), hpa]
    apply congrArg some
    have hsum : n - 0xc0000 + (x - n) = x - 0xc0000 := by omega
    rw [← BitVec.ofNat_add, ← Nat.mul_add, hsum]
  · rw [if_neg hx, hf]
    by_cases hlow : 0xc0000 ≤ x ∧ x < n
    · rw [if_pos hlow, if_pos (by omega)]
    · rw [if_neg hlow, if_neg (by omega)]

/-- The last address of an entry of the direct map. -/
theorem direct_last (a b : Word) : a + (v2p b - v2p a) - 1 = b - 1 := by
  unfold v2p
  bv_omega

theorem toNat_v2p {a : Word} (ha : 0xc0000000 ≤ a.toNat) : (v2p a).toNat = a.toNat - 0xc0000000 := by
  unfold v2p KERNBASE
  bv_omega

/-- An entry of the direct map from `a` to `b`. -/
theorem direct_more {a b : Word} (hab : a < b) (hb : b.toNat % 4096 = 0) :
    (a + (v2p b - v2p a) - 1).toNat / 4096 - a.toNat / 4096 = b.toNat / 4096 - 1 - a.toNat / 4096 := by
  have hlt : a.toNat < b.toNat := hab
  have hsub : (b - 1).toNat = b.toNat - 1 := by bv_omega
  rw [direct_last, hsub]
  omega

/-- The entry for the vector table maps one page: its last address wraps around. -/
theorem vec_more (t : Target) (hvec : VecPage vec) :
    (VEC_TBL + (t.UART0_BASE_P + 0x1000 - v2p vec) - 1).toNat / 4096 - VEC_TBL.toNat / 4096 = 0 := by
  obtain ⟨-, hvec⟩ := hvec
  have hwrap : (VEC_TBL + (t.UART0_BASE_P + 0x1000 - v2p vec) - 1).toNat < 0xffff1000 := by
    unfold VEC_TBL
    cases t with
    | qemu =>
        show ((0xffff0000 : Word) + (0x101f1000 + 0x1000 - v2p vec) - 1).toNat < 0xffff1000
        bv_omega
    | real =>
        show ((0xffff0000 : Word) + (0x20201000 + 0x1000 - v2p vec) - 1).toNat < 0xffff1000
        bv_omega
  have hvecp : VEC_TBL.toNat / 4096 = 0xffff0 := by decide
  omega

/-- The four entries of the direct map. -/
theorem overlay_kernel (h : Linked sym) (x : Nat) :
    overlay (sym.kend.toNat / 4096)
        ((sym.kend + (PHYSTOP - v2p sym.kend) - 1).toNat / 4096 - sym.kend.toNat / 4096)
        (v2p sym.kend)
      (overlay (sym.data.toNat / 4096)
          ((sym.data + (v2p sym.kend - v2p sym.data) - 1).toNat / 4096 - sym.data.toNat / 4096)
          (v2p sym.data)
        (overlay (KERNLINK.toNat / 4096)
            ((KERNLINK + (v2p sym.data - v2p KERNLINK) - 1).toNat / 4096 - KERNLINK.toNat / 4096)
            (v2p KERNLINK)
          (overlay (KERNBASE.toNat / 4096)
            ((KERNBASE + (EXTMEM - 0) - 1).toNat / 4096 - KERNBASE.toNat / 4096) 0
            fun _ => none))) x =
      if 0xc0000 ≤ x ∧ x < 0xc2000 then some (BitVec.ofNat 32 (4096 * (x - 0xc0000)))
      else none := by
  obtain ⟨hd, hk, htop, hda, hka⟩ := h.bounds
  have hv2p : ∀ a : Word, 0xc0000000 ≤ a.toNat → a.toNat % 4096 = 0 →
      v2p a = BitVec.ofNat 32 (4096 * (a.toNat / 4096 - 0xc0000)) := by
    intro a ha hmod
    have hval := toNat_v2p ha
    apply BitVec.eq_of_toNat_eq
    rw [hval, BitVec.toNat_ofNat]
    have hlt := a.isLt
    omega
  have hlink : KERNLINK.toNat / 4096 = 0xc0008 := by decide
  have hstop : (p2v PHYSTOP).toNat / 4096 = 0xc2000 := by decide
  have hmore := direct_more (a := sym.kend) (b := p2v PHYSTOP)
    (show sym.kend.toNat < 3254779904 by omega) (by decide)
  rw [show v2p (p2v PHYSTOP) = PHYSTOP by decide, hstop] at hmore
  apply overlay_direct (by omega) (hv2p _ (by omega) hka)
  · rw [hmore]
    omega
  apply overlay_direct (by omega) (hv2p _ (by omega) hda)
  · rw [direct_more h.data_kend hka]
    omega
  apply overlay_direct (by omega) (hv2p _ (by decide) (by decide))
  · rw [direct_more h.data_low hda, hlink]
    omega
  apply overlay_direct (by decide) (by decide) (by decide)
  intro x
  rw [if_neg]
  have hbase : KERNBASE.toNat / 4096 = 0xc0000 := by decide
  omega

/-- The entries of `kmap`, one over the other, map the pages of `kernelPages`. -/
theorem overlayAll_kmap (h : Linked sym) (hvec : VecPage vec) :
    overlayAll (kmap t sym.data sym.kend vec) (fun _ => none) = kernelPages t vec := by
  funext x
  have huart : (t.UART0_BASE_V + (t.UART0_BASE_P + 0x1000 - t.UART0_BASE_P) - 1).toNat / 4096 -
      t.UART0_BASE_V.toNat / 4096 = 0 := by
    cases t <;> decide
  have hkernel := overlay_kernel h x
  unfold overlayAll kmap
  simp only [List.foldl_cons, List.foldl_nil, KmapEntry.first, KmapEntry.more]
  rw [overlay_single (m := 0x7e00b) (by decide) (by decide),
    overlay_single (m := 0xfffef) (by decide) (by decide),
    overlay_single (m := 0xffff0) (by decide) (vec_more t hvec),
    overlay_single (m := t.UART0_BASE_V.toNat / 4096) rfl huart, hkernel]
  rfl

theorem spans_iff (n c i : Nat) : Spans n c i ↔ n / 256 ≤ i ∧ i ≤ (n + c) / 256 := by
  unfold Spans
  constructor
  · rintro ⟨x, h₁, h₂, rfl⟩
    omega
  · rintro ⟨h₁, h₂⟩
    exact ⟨max n (256 * i), by omega, by omega, by omega⟩

/-- The page tables of the kernel address space: 32 of the direct map, and those
of the UART, of the vector table and the interrupt controller, and of the timer. -/
def kernelTables : List Nat := (List.range 32).map (0xc00 + ·) ++ [0xf22, 0xfff, 0x7e0]

theorem mem_kernelTables (i : Nat) :
    i ∈ kernelTables ↔ (0xc00 ≤ i ∧ i < 0xc20) ∨ i = 0xf22 ∨ i = 0xfff ∨ i = 0x7e0 := by
  unfold kernelTables
  rw [List.mem_append, List.mem_map]
  simp only [List.mem_range, List.mem_cons, List.not_mem_nil, or_false]
  apply or_congr_left
  constructor
  · rintro ⟨x, hx, rfl⟩
    omega
  · intro h
    exact ⟨i - 0xc00, by omega, by omega⟩

/-- The page tables of the direct map: its entries meet at the pages of `data` and of
`end`. -/
theorem direct_spans {d e : Nat} (hd : 0xc0008 < d) (hde : d < e) (he : e < 0xc0400) (i : Nat) :
    (0xc0000 / 256 ≤ i ∧ i ≤ (0xc0000 + 7) / 256 ∨
      0xc0008 / 256 ≤ i ∧ i ≤ (0xc0008 + (d - 1 - 0xc0008)) / 256 ∨
      d / 256 ≤ i ∧ i ≤ (d + (e - 1 - d)) / 256 ∨
      e / 256 ≤ i ∧ i ≤ (e + (0xc2000 - 1 - e)) / 256) ↔ 0xc00 ≤ i ∧ i < 0xc20 := by
  constructor
  · rintro (h | h | h | h) <;> omega
  · intro h
    by_cases hie : e / 256 ≤ i
    · exact .inr (.inr (.inr (by omega)))
    · by_cases hid : d / 256 ≤ i
      · exact .inr (.inr (.inl (by omega)))
      · exact .inr (.inl (by omega))

/-- The page tables that the entries of `kmap` need. -/
theorem kmap_spans (h : Linked sym) (hvec : VecPage vec) (i : Nat) :
    (∃ e ∈ kmap t sym.data sym.kend vec, Spans e.first e.more i) ↔ i ∈ kernelTables := by
  obtain ⟨hd, hk, htop, hda, hka⟩ := h.bounds
  have hlink : KERNLINK.toNat / 4096 = 0xc0008 := by decide
  have hbase : KERNBASE.toNat / 4096 = 0xc0000 := by decide
  have hbase' : (KERNBASE + (EXTMEM - 0) - 1).toNat / 4096 - 0xc0000 = 7 := by decide
  have hstop : (p2v PHYSTOP).toNat / 4096 = 0xc2000 := by decide
  have hmore := direct_more (a := sym.kend) (b := p2v PHYSTOP)
    (show sym.kend.toNat < 3254779904 by omega) (by decide)
  rw [show v2p (p2v PHYSTOP) = PHYSTOP by decide, hstop] at hmore
  have huart : t.UART0_BASE_V.toNat / 4096 / 256 = 0xf22 := by
    cases t <;> decide
  have huart' : (t.UART0_BASE_V + (t.UART0_BASE_P + 0x1000 - t.UART0_BASE_P) - 1).toNat / 4096 -
      t.UART0_BASE_V.toNat / 4096 = 0 := by
    cases t <;> decide
  have hvecp : VEC_TBL.toNat / 4096 = 0xffff0 := by decide
  have hvic : VIC_BASE.toNat / 4096 = 0xfffef := by decide
  have hvic' : (VIC_BASE + (VIC_BASE + 0x1000 - VIC_BASE) - 1).toNat / 4096 - 0xfffef = 0 := by decide
  have htimer : TIMER_BASE.toNat / 4096 = 0x7e00b := by decide
  have htimer' : (TIMER_BASE + (TIMER_BASE + 0x1000 - TIMER_BASE) - 1).toNat / 4096 - 0x7e00b = 0 := by
    decide
  have htext := direct_more h.data_low hda
  have hvec' := vec_more t hvec
  rw [hlink] at htext
  rw [hvecp] at hvec'
  rw [mem_kernelTables]
  unfold kmap
  simp only [List.exists_mem_cons_iff, List.not_mem_nil, false_and, exists_false, or_false,
    KmapEntry.first, KmapEntry.more, spans_iff, direct_more h.data_kend hka, hmore, huart', hbase,
    hbase', hlink, htext, hvecp, hvec', hvic, hvic', htimer, htimer', Nat.add_zero, huart]
  rw [← direct_spans (d := sym.data.toNat / 4096) (e := sym.kend.toNat / 4096) (by omega)
    (by omega) (by omega)]
  simp only [or_assoc]
  refine or_congr .rfl (or_congr .rfl (or_congr .rfl (or_congr .rfl ?_)))
  omega

end Pages

/-! ## setupkvm -/

section Setup

variable {sym : Symbols} {t : Target} {vend : Word} {k : Kmem} {l : List Word} {mmu : Mmu}

theorem Usable.bounds (h : Usable vend) : 0xc0400000 ≤ vend.toNat ∧ vend.toNat ≤ 0xc2000000 :=
  ⟨h.low, h.high⟩

/-- The physical memory of the free pages. -/
def Linked.region (hsym : Linked sym) (hv : Usable vend) : Region where
  low := (v2p sym.kend).toNat
  top := (v2p vend).toNat
  low_le := by
    have hv := hv.bounds
    have hkend := hsym.bounds
    rw [toNat_v2p (by omega), toNat_v2p (by omega)]
    omega
  top_le := by
    have hv := hv.bounds
    rw [toNat_v2p (by omega)]
    omega

/-- The pages of the region, by their kernel addresses. -/
theorem Linked.physPage_iff (hsym : Linked sym) (hv : Usable vend) (p : Word) :
    PhysPage (hsym.region hv) (v2p p) ↔ WholePage sym.kend vend p := by
  obtain ⟨hv₁, hv₂⟩ := hv.bounds
  obtain ⟨hd, hk, htop, hda, hka⟩ := hsym.bounds
  have hkv := toNat_v2p (a := sym.kend) (by omega)
  have hvv := toNat_v2p (a := vend) (by omega)
  constructor
  · rintro ⟨halign, hlow, hhigh⟩
    have hlow' : (v2p sym.kend).toNat ≤ (v2p p).toNat := hlow
    have hhigh' : (v2p p).toNat + 4096 ≤ (v2p vend).toNat := hhigh
    have hval : p.toNat = (v2p p).toNat + 0xc0000000 := by
      rw [hvv] at hhigh'
      unfold v2p KERNBASE at hhigh' ⊢
      bv_omega
    unfold Aligned at halign
    refine ⟨?_, ?_, ?_⟩
    · unfold Aligned
      omega
    · show sym.kend.toNat ≤ p.toNat
      omega
    · omega
  · rintro ⟨halign, hlow, hhigh⟩
    have hle : sym.kend.toNat ≤ p.toNat := hlow
    have hpv := toNat_v2p (a := p) (by omega)
    unfold Aligned at halign
    refine ⟨?_, ?_, ?_⟩
    · unfold Aligned
      omega
    · show (v2p sym.kend).toNat ≤ (v2p p).toNat
      omega
    · show (v2p p).toNat + 4096 ≤ (v2p vend).toNat
      omega

/-- A free page as a physical page. -/
theorem LowPages.physPage (hsym : Linked sym) (hv : Usable vend) (h : LowPages sym vend k l)
    {p : Word} (hp : p ∈ l) : PhysPage (hsym.region hv) (v2p p) :=
  (hsym.physPage_iff hv p).mpr (h.page p hp)

/-- The physical address of the directory. -/
theorem Linked.pgdir (h : Linked sym) :
    (v2p sym.kernel_pgdir).toNat % 16384 = 0 ∧
      (v2p sym.kernel_pgdir).toNat + 16384 ≤ (v2p sym.kend).toNat := by
  obtain ⟨hd, hk, htop, hda, hka⟩ := h.bounds
  have hlow : 0xc0008000 ≤ sym.kernel_pgdir.toNat := h.pgdir_low
  have hhigh := h.pgdir_high
  have hmod := h.pgdir_aligned
  have hpv := toNat_v2p (a := sym.kernel_pgdir) (by omega)
  have hkv := toNat_v2p (a := sym.kend) (by omega)
  omega

/-- The cleared directory maps nothing. -/
theorem LowPages.built (hsym : Linked sym) (hv : Usable vend) (h : LowPages sym vend k l) :
    Built (hsym.region hv) (v2p sym.kernel_pgdir) (fun _ => none) [] (fun _ => none) l
      { k with mem := memset k.mem sym.kernel_pgdir 0 (4096 * 4) } := by
  obtain ⟨hmod, hdir⟩ := hsym.pgdir
  have hset : ∀ a, memset k.mem sym.kernel_pgdir 0 (4096 * 4) a =
      if (a - v2p sym.kernel_pgdir).toNat % 4 = 0 ∧ (a - v2p sym.kernel_pgdir).toNat < 16384 then 0
      else k.mem a := fun a => memset_apply k.mem sym.kernel_pgdir 0 a (by decide) (by decide)
  generalize memset k.mem sym.kernel_pgdir 0 (4096 * 4) = mem at hset ⊢
  refine ⟨hdir, ?_, fun p hp => h.physPage hsym hv hp, h.nodup, ?_, ?_, ?_, ?_, List.nodup_nil, ?_,
    ?_, fun _ _ _ _ => rfl, ?_⟩
  · apply h.free.congr
    intro p hp
    have hle : (v2p sym.kend).toNat ≤ (v2p p).toNat := (h.physPage hsym hv hp).low_le
    have hlt := (v2p p).isLt
    rw [hset, if_neg]
    rintro ⟨-, hoff⟩
    bv_omega
  · intro i q hq
    cases hq
  · intro i j q hq
    cases hq
  · intro i q hq
    cases hq
  · intro i
    simp
  · intro i hi
    have hval := toNat_dirSlot (R := hsym.region hv) hdir hi
    have hoff : (slot (v2p sym.kernel_pgdir) i - v2p sym.kernel_pgdir).toNat = 4 * i := by bv_omega
    exact (hset _).trans (if_pos (by omega))
  · intro i q hq
    cases hq
  · intro n pa hn
    cases hn

theorem LowPages.vecPage (hsym : Linked sym) (hv : Usable vend) (h : LowPages sym vend k l) :
    VecPage (kalloc k).1 := by
  cases l with
  | nil =>
      have hzero : VecPage 0 := ⟨by decide, Or.inr (by decide)⟩
      rw [kalloc_nil h.free]
      exact hzero
  | cons p l =>
      have hp := h.physPage hsym hv (List.mem_cons_self ..)
      have htop := hp.le_top
      have hend := (hsym.region hv).top_le
      have hlt : (v2p p).toNat < 0x2000000 := by omega
      rw [(kalloc_cons h.free).1]
      exact ⟨hp.aligned, Or.inl hlt⟩

theorem LowPages.after_kalloc (h : LowPages sym vend k l) :
    LowPages sym vend (kalloc k).2 l.tail := by
  cases l with
  | nil =>
      rw [kalloc_nil h.free]
      exact h
  | cons p l =>
      obtain ⟨hrun, hfree⟩ := kalloc_cons h.free
      rw [hrun]
      exact ⟨hfree, (List.nodup_cons.mp h.nodup).2, fun q hq => h.page q (List.mem_cons_of_mem p hq)⟩

theorem Linked.aligned_v2p (h : Linked sym) : Aligned (v2p sym.data) ∧ Aligned (v2p sym.kend) := by
  obtain ⟨hd, hk, htop, hda, hka⟩ := h.bounds
  have hdv := toNat_v2p (a := sym.data) (by omega)
  have hkv := toNat_v2p (a := sym.kend) (by omega)
  unfold Aligned
  omega

/-- The entries of `kmap` start at page boundaries. -/
theorem kmap_aligned (hsym : Linked sym) {vec : Word} (hvec : VecPage vec) :
    ∀ e ∈ kmap t sym.data sym.kend vec, Aligned e.phys_start := by
  have hlink : Aligned (v2p KERNLINK) := by decide
  have huart : Aligned t.UART0_BASE_P := by
    cases t <;> decide
  intro e he
  simp only [kmap, List.mem_cons, List.not_mem_nil, or_false] at he
  rcases he with rfl | rfl | rfl | rfl | rfl | rfl | rfl | rfl
  · decide
  · exact hlink
  · exact hsym.aligned_v2p.1
  · exact hsym.aligned_v2p.2
  · exact huart
  · exact hvec.1
  · decide
  · decide

/-- What a list of page tables that is one short of the kernel's has at most. -/
theorem length_lt_kernelTables {keys : List Nat} (hnd : keys.Nodup)
    (hsub : ∀ i ∈ keys, i ∈ kernelTables) (hmiss : ∃ i, i ∈ kernelTables ∧ i ∉ keys) :
    keys.length < 35 := by
  obtain ⟨i, hi, hni⟩ := hmiss
  have hsub' : i :: keys ⊆ kernelTables := List.cons_subset.mpr ⟨hi, hsub⟩
  have hle := (List.subperm_of_subset (List.nodup_cons.mpr ⟨hni, hnd⟩) hsub').length_le
  rw [List.length_cons] at hle
  exact hle

theorem length_eq_kernelTables {keys : List Nat} (hnd : keys.Nodup)
    (hiff : ∀ i, i ∈ keys ↔ i ∈ kernelTables) : keys.length = 35 :=
  ((List.perm_ext_iff_of_nodup hnd (by decide)).mpr hiff).length_eq

/-- `setupkvm` with fewer than 36 free pages returns 0; otherwise it returns a
directory that maps the pages of `kernelPages`. -/
theorem setupkvm_run (hsym : Linked sym) (hv : Usable vend) (hmmu : LowMapped (v2p vend).toNat mmu)
    (h : LowPages sym vend k l) :
    (36 ≤ l.length ∧ ∃ k₁ l₁, setupkvm mmu t sym k = .ok (sym.kernel_pgdir, k₁) ∧
      LowPages sym vend k₁ l₁ ∧ l₁.length + 36 = l.length ∧
      ∀ va, translate k₁.mem (v2p sym.kernel_pgdir) va =
        (kernelPages t (kalloc k).1 (va.toNat / 4096)).map
          fun pa => pa + BitVec.ofNat 32 (va.toNat % 4096)) ∨
    (l.length < 36 ∧ ∃ k₁, setupkvm mmu t sym k = .ok (0, k₁) ∧ LowPages sym vend k₁ []) := by
  have hvec := h.vecPage hsym hv
  have hbuilt := h.after_kalloc.built hsym hv
  have hspans := kmap_spans (t := t) hsym hvec
  have hlen : l.tail.length = l.length - 1 := List.length_tail
  have hrun : ∀ {ok k₁}, mapEntries mmu sym.kernel_pgdir (kmap t sym.data sym.kend (kalloc k).1)
      { (kalloc k).2 with mem := memset (kalloc k).2.mem sym.kernel_pgdir 0 (4096 * 4) } =
        .ok (ok, k₁) →
      setupkvm mmu t sym k = .ok (if ok then sym.kernel_pgdir else 0, k₁) := by
    intro ok k₁ hmap
    rw [setupkvm]
    show (mapEntries _ _ _ _ >>= _) = _
    rw [hmap]
    rfl
  have hmap := mapEntries_run hmmu hbuilt (kmap_aligned (t := t) hsym hvec)
  rw [p2v_v2p] at hmap
  cases hmap with
  | inl hok =>
      obtain ⟨tab₁, keys₁, l₁, k₁, hmap, hmapped⟩ := hok
      have hcount := hmapped.count
      have hkeys : keys₁.length = 35 := by
        apply length_eq_kernelTables hmapped.built.keys_nodup
        intro i
        rw [hmapped.keys_iff, hspans i]
        simp
      rw [List.length_nil, hlen] at hcount
      refine Or.inl ⟨by omega, k₁, l₁, hrun hmap, ⟨hmapped.built.free, hmapped.built.free_nodup, ?_⟩,
        by omega, ?_⟩
      · intro p hp
        exact (hsym.physPage_iff hv p).mp (hmapped.built.free_page p hp)
      · intro va
        rw [hmapped.built.translate_eq hsym.pgdir.1 va, overlayAll_kmap hsym hvec]
  | inr hfail =>
      obtain ⟨keys₁, k₁, hmap, hex⟩ := hfail
      have hcount := hex.count
      have hkeys : keys₁.length < 35 := by
        apply length_lt_kernelTables hex.nodup
        · intro i hi
          rw [← hspans i]
          exact (hex.keys_sub i hi).resolve_left (List.not_mem_nil)
        · obtain ⟨i, hi, hni⟩ := hex.missing
          exact ⟨i, (hspans i).mp hi, hni⟩
      rw [List.length_nil, hlen] at hcount
      refine Or.inr ⟨by omega, k₁, hrun hmap, hex.free, List.nodup_nil, ?_⟩
      intro p hp
      cases hp

end Setup

end Xv6Arm.Vm
