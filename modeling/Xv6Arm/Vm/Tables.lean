import Xv6Arm.Vm.Model

/-!
# Page tables in memory

`Built` says that memory holds a directory with page tables that map the pages
of a function `f`.  `walkpgdir` and `mappages` are described by what they do to
`f` and to the pages that are free.
-/

namespace Xv6Arm.Vm

/-! ## Descriptors -/

/-- The index of an address into the directory. -/
def pdx (va : Word) : Nat := va.toNat / 2 ^ 20

/-- The index of an address into a page table. -/
def ptx (va : Word) : Nat := va.toNat / 4096 % 256

/-- Element `i` of an array of words. -/
def slot (base : Word) (i : Nat) : Word := base + BitVec.ofNat 32 (4 * i)

theorem pdx_lt (va : Word) : pdx va < 4096 := by
  have hlt := va.isLt
  unfold pdx
  omega

theorem ptx_lt (va : Word) : ptx va < 256 := Nat.mod_lt _ (by decide)

theorem vpn_eq (va : Word) : va.toNat / 4096 = 256 * pdx va + ptx va := by
  unfold pdx ptx
  omega

theorem toNat_PDX (va : Word) : (PDX va).toNat = pdx va := by
  have hlow := toNat_and_low (va >>> 20) (j := 12) (by decide)
  have hlt := va.isLt
  rw [BitVec.toNat_ushiftRight, Nat.shiftRight_eq_div_pow] at hlow
  unfold PDX pdx
  rw [show (0xFFF : Word) = BitVec.ofNat 32 (2 ^ 12 - 1) from rfl, hlow]
  omega

theorem toNat_PTX (va : Word) : (PTX va).toNat = ptx va := by
  have hlow := toNat_and_low (va >>> 12) (j := 8) (by decide)
  rw [BitVec.toNat_ushiftRight, Nat.shiftRight_eq_div_pow] at hlow
  unfold PTX ptx
  rw [show (0xFF : Word) = BitVec.ofNat 32 (2 ^ 8 - 1) from rfl]
  omega

theorem add_PDX (base va : Word) : base + 4 * PDX va = slot base (pdx va) := by
  have hval := toNat_PDX va
  have hlt := pdx_lt va
  unfold slot
  bv_omega

theorem add_PTX (base va : Word) : base + 4 * PTX va = slot base (ptx va) := by
  have hval := toNat_PTX va
  have hlt := ptx_lt va
  unfold slot
  bv_omega

/-- Flags are added to a page address. -/
theorem toNat_or_flags {q c : Word} (hq : Aligned q) (hc : c.toNat < 4096) :
    (q ||| c).toNat = q.toNat + c.toNat := by
  have hmul : q.toNat = 2 ^ 12 * (q.toNat / 4096) := by
    unfold Aligned at hq
    omega
  rw [BitVec.toNat_or, hmul, Nat.two_pow_add_eq_or_of_lt hc]

theorem toNat_coarsePde {q : Word} (hq : Aligned q) : (coarsePde q).toNat = q.toNat + 481 := by
  have hflags : coarsePde q = q ||| 481 := by
    unfold coarsePde
    rw [BitVec.or_assoc, BitVec.or_assoc]
    rfl
  rw [hflags, toNat_or_flags hq (by decide)]
  rfl

theorem toNat_pagePte {pa : Word} (hpa : Aligned pa) : (pagePte pa).toNat = pa.toNat + 99 := by
  have hflags : pagePte pa = pa ||| 99 := by
    unfold pagePte
    simp only [BitVec.or_assoc]
    rfl
  rw [hflags, toNat_or_flags hpa (by decide)]
  rfl

/-- The low two bits of a descriptor. -/
theorem and_three_eq {d : Word} {n : Nat} (hn : n < 4) (h : d.toNat % 4 = n) :
    d &&& 3 = BitVec.ofNat 32 n := by
  apply BitVec.eq_of_toNat_eq
  have hlow := toNat_and_low d (j := 2) (by decide)
  rw [show (3 : Word) = BitVec.ofNat 32 (2 ^ 2 - 1) from rfl, hlow, BitVec.toNat_ofNat]
  omega

/-- The address in a directory entry, by the mask of the MMU and by the one of
`walkpgdir`. -/
theorem coarsePde_and {q : Word} (hq : Aligned q) :
    coarsePde q &&& 0xfffffc00 = q ∧ coarsePde q &&& 0xfffff800 = q := by
  have hval := toNat_coarsePde hq
  unfold Aligned at hq
  constructor
  · apply BitVec.eq_of_toNat_eq
    rw [show (0xfffffc00 : Word) = ~~~(BitVec.ofNat 32 (2 ^ 10 - 1)) from rfl,
      toNat_and_not_low]
    omega
  · apply BitVec.eq_of_toNat_eq
    rw [show (0xfffff800 : Word) = ~~~(BitVec.ofNat 32 (2 ^ 11 - 1)) from rfl,
      toNat_and_not_low]
    omega

/-- The kind of a second-level descriptor that `mappages` writes, and the page in it. -/
theorem pagePte_and {pa : Word} (hpa : Aligned pa) :
    pagePte pa &&& 3 = 3 ∧ pagePte pa &&& 0xfffff000 = pa := by
  have hval := toNat_pagePte hpa
  unfold Aligned at hpa
  constructor
  · apply and_three_eq (n := 3) (by decide)
    omega
  · apply BitVec.eq_of_toNat_eq
    rw [show (0xfffff000 : Word) = ~~~(BitVec.ofNat 32 (2 ^ 12 - 1)) from rfl, toNat_and_not_low]
    omega

/-- The physical address, from the page and the offset in it. -/
theorem page_or_offset {pa : Word} (hpa : Aligned pa) (va : Word) :
    pa ||| (va &&& 0xfff) = pa + BitVec.ofNat 32 (va.toNat % 4096) := by
  have hoff : (va &&& 0xfff).toNat = va.toNat % 4096 := toNat_and_low va (j := 12) (by decide)
  have hlt : va.toNat % 4096 < 4096 := Nat.mod_lt _ (by decide)
  apply BitVec.eq_of_toNat_eq
  rw [toNat_or_flags hpa (by omega), hoff]
  unfold Aligned at hpa
  bv_omega

/-- The entry of a page that is mapped to `pa`, or of one that is not mapped. -/
def pteOf : Option Word → Word
  | none => 0
  | some pa => pagePte pa

/-- The walk through a page table. -/
theorem translateBy_coarse {mem : Mem} {q va : Word} {o : Option Word} (hq : Aligned q)
    (ho : ∀ pa, o = some pa → Aligned pa) (hpte : mem (slot q (ptx va)) = pteOf o) :
    translateBy mem (coarsePde q) va = o.map fun pa => pa + BitVec.ofNat 32 (va.toNat % 4096) := by
  have hval := toNat_coarsePde hq
  have htype : coarsePde q &&& 3 = 1 := by
    apply and_three_eq (n := 1) (by decide)
    unfold Aligned at hq
    omega
  unfold translateBy
  rw [if_pos htype, (coarsePde_and hq).1, add_PTX]
  simp only [hpte]
  cases o with
  | none => rfl
  | some pa =>
      have hpa := ho pa rfl
      obtain ⟨hbits, hpage⟩ := pagePte_and hpa
      have hentry : pteOf (some pa) = pagePte pa := rfl
      rw [hentry, hbits, if_neg (by decide), if_neg (by decide), hpage, page_or_offset hpa va]
      rfl

/-! ## Tables -/

/-- The physical memory that page tables are made of. -/
structure Region where
  low : Nat
  top : Nat
  low_le : low ≤ top
  top_le : top ≤ 0x2000000

/-- A physical page of that memory. -/
structure PhysPage (R : Region) (q : Word) : Prop where
  aligned : Aligned q
  low_le : R.low ≤ q.toNat
  le_top : q.toNat + 4096 ≤ R.top

/-- The directory entry for a page table, if there is one. -/
def pdeOf : Option Word → Word
  | none => 0
  | some q => coarsePde q

/-- Memory holds a directory at the physical address `dir`, below `R`, with a
page table `tab i` for every index `i` in `keys`.  They map page `n` to `f n`.
The free list runs through the pages `l`. -/
structure Built (R : Region) (dir : Word) (tab : Nat → Option Word) (keys : List Nat)
    (f : Nat → Option Word) (l : List Word) (k : Kmem) : Prop where
  dir_low : dir.toNat + 16384 ≤ R.low
  free : Free k l
  free_page : ∀ p ∈ l, PhysPage R (v2p p)
  free_nodup : l.Nodup
  tab_page : ∀ i q, tab i = some q → PhysPage R q
  tab_inj : ∀ i j q, tab i = some q → tab j = some q → i = j
  tab_free : ∀ i q, tab i = some q → ∀ p ∈ l, v2p p ≠ q
  keys_iff : ∀ i, i ∈ keys ↔ (tab i).isSome = true
  keys_nodup : keys.Nodup
  pde : ∀ i, i < 4096 → k.mem (slot dir i) = pdeOf (tab i)
  pte : ∀ i q, tab i = some q → ∀ j, j < 256 → k.mem (slot q j) = pteOf (f (256 * i + j))
  unmapped : ∀ i, tab i = none → ∀ j, j < 256 → f (256 * i + j) = none
  phys_aligned : ∀ n pa, f n = some pa → Aligned pa

/-- What the directory maps is what the MMU finds in it. -/
theorem Built.translate_eq {R : Region} {dir : Word} {tab : Nat → Option Word} {keys : List Nat}
    {f : Nat → Option Word} {l : List Word} {k : Kmem} (h : Built R dir tab keys f l k)
    (hdir : dir.toNat % 16384 = 0) (va : Word) :
    translate k.mem dir va =
      (f (va.toNat / 4096)).map fun pa => pa + BitVec.ofNat 32 (va.toNat % 4096) := by
  have hbase : dir &&& 0xffffc000 = dir := by
    apply BitVec.eq_of_toNat_eq
    rw [show (0xffffc000 : Word) = ~~~(BitVec.ofNat 32 (2 ^ 14 - 1)) from rfl, toNat_and_not_low]
    omega
  rw [translate, hbase, add_PDX, h.pde _ (pdx_lt va), vpn_eq]
  cases htab : tab (pdx va) with
  | none =>
      rw [h.unmapped _ htab _ (ptx_lt va)]
      rfl
  | some q =>
      exact translateBy_coarse (h.tab_page _ q htab).aligned (h.phys_aligned _)
        (h.pte _ q htab _ (ptx_lt va))

/-- The translation maps physical memory up to `top` at the kernel's addresses. -/
structure KernMapped (top : Nat) (mmu : Mmu) : Prop where
  kern : ∀ a : Word, a.toNat < top → mmu (p2v a) = some a

/-- The translation maps physical memory up to `top`, at the kernel's addresses and at
its own: `walkpgdir` gives both kinds. -/
structure LowMapped (top : Nat) (mmu : Mmu) : Prop extends KernMapped top mmu where
  phys : ∀ a : Word, a.toNat < top → mmu a = some a

/-! ## Addresses that differ -/

theorem toNat_slot {R : Region} {q : Word} (hq : PhysPage R q) {j : Nat} (hj : j < 256) :
    (slot q j).toNat = q.toNat + 4 * j := by
  have htop := hq.le_top
  have hend := R.top_le
  unfold slot
  bv_omega

theorem toNat_dirSlot {R : Region} {dir : Word} (hdir : dir.toNat + 16384 ≤ R.low)
    {i : Nat} (hi : i < 4096) : (slot dir i).toNat = dir.toNat + 4 * i := by
  have hlow := R.low_le
  have hend := R.top_le
  unfold slot
  bv_omega

/-- An element of the directory is not in a page above it. -/
theorem dirSlot_notInPage {R : Region} {dir q : Word} (hdir : dir.toNat + 16384 ≤ R.low)
    (hq : PhysPage R q) {i : Nat} (hi : i < 4096) : ¬ InPage q (slot dir i) := by
  have hle := hq.low_le
  have htop := hq.le_top
  have hval := toNat_dirSlot hdir hi
  have hend := R.top_le
  unfold InPage
  bv_omega

/-- An element of a page table is in its page. -/
theorem slot_inPage {R : Region} {q : Word} (hq : PhysPage R q) {j : Nat} (hj : j < 256) :
    InPage q (slot q j) := by
  have hval := toNat_slot hq hj
  unfold InPage
  bv_omega

theorem PhysPage.disjoint {R : Region} {p q a : Word} (hp : PhysPage R p)
    (hq : PhysPage R q) (hne : p ≠ q) (ha : InPage q a) : ¬ InPage p a :=
  ha.ne hq.aligned hp.aligned hne.symm

/-! ## Changes of the tables -/

section Changes

variable {R : Region} {dir : Word} {tab : Nat → Option Word} {keys : List Nat}
  {f : Nat → Option Word} {l : List Word} {k : Kmem}

/-- A write of a page table entry. -/
theorem Built.setPte (h : Built R dir tab keys f l k) {i j : Nat} {q pa : Word}
    (hq : tab i = some q) (hj : j < 256) (hpa : Aligned pa) :
    Built R dir tab keys (Function.update f (256 * i + j) (some pa)) l
      { k with mem := Function.update k.mem (slot q j) (pagePte pa) } := by
  have hpage := h.tab_page i q hq
  have hin := slot_inPage hpage hj
  have hother : ∀ a, ¬ InPage q a → Function.update k.mem (slot q j) (pagePte pa) a = k.mem a := by
    intro a ha
    apply Function.update_of_ne
    rintro rfl
    exact ha hin
  refine ⟨h.dir_low, ?_, h.free_page, h.free_nodup, h.tab_page, h.tab_inj, h.tab_free, h.keys_iff,
    h.keys_nodup, ?_, ?_, ?_, ?_⟩
  · apply h.free.congr
    intro p hp
    exact hother _ (hpage.disjoint (h.free_page p hp) (h.tab_free i q hq p hp).symm (inPage_self _))
  · intro i' hi'
    exact (hother _ (dirSlot_notInPage h.dir_low hpage hi')).trans (h.pde i' hi')
  · intro i' q' hq' j' hj'
    have hpage' := h.tab_page i' q' hq'
    show Function.update k.mem (slot q j) (pagePte pa) (slot q' j') = _
    by_cases hi : i' = i
    · subst hi
      obtain rfl : q' = q := Option.some.inj (hq'.symm.trans hq)
      by_cases hjj : j' = j
      · subst hjj
        rw [Function.update_self, Function.update_self]
        rfl
      · have hv := toNat_slot hpage hj
        have hv' := toNat_slot hpage hj'
        have hne : slot q' j' ≠ slot q' j := by
          intro he
          rw [he] at hv'
          omega
        rw [Function.update_of_ne hne, Function.update_of_ne (by omega)]
        exact h.pte i' q' hq' j' hj'
    · have hne : q ≠ q' := fun he => hi (h.tab_inj i' i q' hq' (he ▸ hq))
      rw [hother _ (hpage.disjoint hpage' hne (slot_inPage hpage' hj')),
        Function.update_of_ne (by omega)]
      exact h.pte i' q' hq' j' hj'
  · intro i' hi' j' hj'
    have hi : i' ≠ i := by
      rintro rfl
      rw [hq] at hi'
      cases hi'
    rw [Function.update_of_ne (by omega)]
    exact h.unmapped i' hi' j' hj'
  · intro n pa' hn
    by_cases hni : n = 256 * i + j
    · rw [hni, Function.update_self] at hn
      exact Option.some.inj hn ▸ hpa
    · rw [Function.update_of_ne hni] at hn
      exact h.phys_aligned n pa' hn

/-- `memset` clears a page table. -/
theorem memset_zero (mem : Mem) {R : Region} {p : Word} (hp : PhysPage R (v2p p)) {j : Nat}
    (hj : j < 256) : memset mem p 0 4096 (slot (v2p p) j) = 0 := by
  have hv := toNat_slot hp hj
  have hoff : (slot (v2p p) j - v2p p).toNat = 4 * j := by bv_omega
  rw [memset_apply mem p 0 _ (by decide) (by decide), if_pos (by omega)]
  decide

/-- A free page becomes a page table. -/
theorem Built.addTable {p : Word} (h : Built R dir tab keys f (p :: l) k) {i : Nat}
    (hi : tab i = none) (hlt : i < 4096) :
    Built R dir (Function.update tab i (some (v2p p))) (i :: keys) f l
      { mem := Function.update (memset k.mem p 0 4096) (slot dir i) (coarsePde (v2p p))
        freelist := k.mem (v2p p) } := by
  have hp := h.free_page p (List.mem_cons_self ..)
  obtain ⟨hpl, hnd⟩ := List.nodup_cons.mp h.free_nodup
  have hne : ∀ r ∈ l, v2p p ≠ v2p r := fun r hr he => hpl (v2p_inj he ▸ hr)
  have hdir : ∀ q, PhysPage R q → ∀ a, InPage q a →
      Function.update (memset k.mem p 0 4096) (slot dir i) (coarsePde (v2p p)) a =
        memset k.mem p 0 4096 a := by
    intro q hq a ha
    apply Function.update_of_ne
    rintro rfl
    exact dirSlot_notInPage h.dir_low hq hlt ha
  refine ⟨h.dir_low, ?_, fun r hr => h.free_page r (List.mem_cons_of_mem p hr), hnd, ?_, ?_, ?_, ?_,
    ?_, ?_, ?_, ?_, h.phys_aligned⟩
  · apply Chain.congr h.free.2.2
    intro r hr
    have hr' := h.free_page r (List.mem_cons_of_mem p hr)
    show Function.update _ _ _ (v2p r) = _
    rw [hdir _ hr' _ (inPage_self _),
      memset_of_notInPage _ _ (hp.disjoint hr' (hne r hr) (inPage_self _))]
  · intro i' q hq
    by_cases hii : i' = i
    · rw [hii, Function.update_self] at hq
      exact Option.some.inj hq ▸ hp
    · rw [Function.update_of_ne hii] at hq
      exact h.tab_page i' q hq
  · intro i' j' q hq hq'
    have hfree := fun i q hq => h.tab_free i q hq p (List.mem_cons_self ..)
    by_cases hii : i' = i
    · by_cases hjj : j' = i
      · rw [hii, hjj]
      · rw [hii, Function.update_self] at hq
        rw [Function.update_of_ne hjj] at hq'
        exact absurd (Option.some.inj hq) (hfree j' q hq')
    · rw [Function.update_of_ne hii] at hq
      by_cases hjj : j' = i
      · rw [hjj, Function.update_self] at hq'
        exact absurd (Option.some.inj hq') (hfree i' q hq)
      · rw [Function.update_of_ne hjj] at hq'
        exact h.tab_inj i' j' q hq hq'
  · intro i' q hq r hr
    by_cases hii : i' = i
    · rw [hii, Function.update_self] at hq
      exact fun he => hne r hr ((Option.some.inj hq).trans he.symm)
    · rw [Function.update_of_ne hii] at hq
      exact h.tab_free i' q hq r (List.mem_cons_of_mem p hr)
  · intro i'
    by_cases hii : i' = i
    · rw [hii, Function.update_self]
      simp
    · rw [Function.update_of_ne hii, List.mem_cons, h.keys_iff i']
      simp [hii]
  · refine List.nodup_cons.mpr ⟨?_, h.keys_nodup⟩
    rw [h.keys_iff i, hi]
    simp
  · intro i' hi'
    show Function.update _ _ _ (slot dir i') = _
    by_cases hii : i' = i
    · rw [hii, Function.update_self, Function.update_self]
      rfl
    · have hv := toNat_dirSlot h.dir_low hi'
      have hv' := toNat_dirSlot h.dir_low hlt
      have hslot : slot dir i' ≠ slot dir i := by
        intro he
        rw [he] at hv
        omega
      rw [Function.update_of_ne hslot, Function.update_of_ne hii,
        memset_of_notInPage _ _ (dirSlot_notInPage h.dir_low hp hi')]
      exact h.pde i' hi'
  · intro i' q hq j hj
    show Function.update _ _ _ (slot q j) = _
    by_cases hii : i' = i
    · rw [hii, Function.update_self] at hq
      obtain rfl : v2p p = q := Option.some.inj hq
      rw [hdir _ hp _ (slot_inPage hp hj), memset_zero _ hp hj, hii, h.unmapped i hi j hj]
      rfl
    · rw [Function.update_of_ne hii] at hq
      have hq' := h.tab_page i' q hq
      have hpq := h.tab_free i' q hq p (List.mem_cons_self ..)
      rw [hdir _ hq' _ (slot_inPage hq' hj),
        memset_of_notInPage _ _ (hp.disjoint hq' hpq (slot_inPage hq' hj))]
      exact h.pte i' q hq j hj
  · intro i' hi' j hj
    by_cases hii : i' = i
    · rw [hii, Function.update_self] at hi'
      cases hi'
    · rw [Function.update_of_ne hii] at hi'
      exact h.unmapped i' hi' j hj

end Changes

end Xv6Arm.Vm
