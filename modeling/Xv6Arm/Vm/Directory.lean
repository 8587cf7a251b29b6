import Xv6Arm.Vm.Setupkvm

/-!
# Any directory of page tables

`Tables` says that the page tables of a directory are different pages, none of them free
and none of them in the directory.  A `Directory` has no sections: its entries are empty
or refer to page tables.  Nothing is said about what the page tables hold, so a call of
`walkpgdir` or `mappages` is described by how it changes `translate`.

`walkpgdir` takes a section for an empty entry and replaces it.
-/

namespace Xv6Arm.Vm

open Fallible (ok_bind)

variable {R : Region} {dir : Word} {l : List Word} {k : Kmem} {mmu : Mmu}

/-! ## Directories -/

/-- The page table that a directory entry refers to. -/
def tableOf (d : Word) : Option Word := if d &&& 3 = 1 then some (d &&& 0xfffffc00) else none

/-- The page table of an index of the directory at the physical address `dir`. -/
def tableAt (mem : Mem) (dir : Word) (i : Nat) : Option Word := tableOf (mem (slot dir i))

/-- A page that is not part of the directory. -/
structure TablePage (R : Region) (dir q : Word) : Prop extends PhysPage R q where
  apart : dir.toNat + 16384 ≤ q.toNat ∨ q.toNat + 4096 ≤ dir.toNat

/-- Memory holds a directory at the physical address `dir`, and the free list runs
through the pages `l`. -/
structure Tables (R : Region) (dir : Word) (l : List Word) (k : Kmem) : Prop where
  dir_aligned : dir.toNat % 16384 = 0
  dir_le_top : dir.toNat + 16384 ≤ R.top
  table_page : ∀ i q, i < 4096 → tableAt k.mem dir i = some q → TablePage R dir q
  table_inj : ∀ i j q, i < 4096 → j < 4096 → tableAt k.mem dir i = some q →
    tableAt k.mem dir j = some q → i = j
  free : Free k l
  free_nodup : l.Nodup
  free_page : ∀ p ∈ l, TablePage R dir (v2p p)
  table_free : ∀ i q, i < 4096 → tableAt k.mem dir i = some q → ∀ p ∈ l, v2p p ≠ q

/-- A directory entry that is empty or refers to a page table. -/
def Plain (d : Word) : Prop := d &&& 3 = 0 ∨ d &&& 3 = 1

/-- A directory without sections. -/
structure Directory (R : Region) (dir : Word) (l : List Word) (k : Kmem) : Prop
    extends Tables R dir l k where
  entry : ∀ i, i < 4096 → Plain (k.mem (slot dir i))

/-- The translation of `va` by a second-level descriptor: a small page, a large page,
or a fault. -/
def translatePte (pte va : Word) : Option Word :=
  if pte &&& 3 = 0 then none
  else if pte &&& 3 = 1 then some ((pte &&& 0xffff0000) ||| (va &&& 0xffff))
  else some ((pte &&& 0xfffff000) ||| (va &&& 0xfff))

theorem translatePte_pagePte {pa : Word} (hpa : Aligned pa) (va : Word) :
    translatePte (pagePte pa) va = some (pa + BitVec.ofNat 32 (va.toNat % 4096)) := by
  obtain ⟨hbits, hpage⟩ := pagePte_and hpa
  rw [translatePte, hbits, if_neg (by decide), if_neg (by decide), hpage, page_or_offset hpa va]

/-- The memory after a free page became a page table. -/
def newTable (k : Kmem) (dir p : Word) (i : Nat) : Kmem :=
  { mem := Function.update (memset k.mem p 0 4096) (slot dir i) (coarsePde (v2p p))
    freelist := k.mem (v2p p) }

/-- The memory after a write of the page table entry of an index. -/
def setPte (k : Kmem) (q pa : Word) (j : Nat) : Kmem :=
  { k with mem := Function.update k.mem (slot q j) (pagePte pa) }

theorem tableOf_coarsePde {q : Word} (hq : Aligned q) :
    coarsePde q &&& 3 = 1 ∧ tableOf (coarsePde q) = some q := by
  have hval := toNat_coarsePde hq
  have htype : coarsePde q &&& 3 = 1 := by
    apply and_three_eq (n := 1) (by decide)
    unfold Aligned at hq
    omega
  refine ⟨htype, ?_⟩
  rw [tableOf, if_pos htype, (coarsePde_and hq).1]

namespace Tables

theorem toNat_slot (h : Tables R dir l k) {i : Nat} (hi : i < 4096) :
    (slot dir i).toNat = dir.toNat + 4 * i := by
  have htop := h.dir_le_top
  have hend := R.top_le
  unfold slot
  bv_omega

/-- An element of the directory is in no page of the tables. -/
theorem slot_notInPage (h : Tables R dir l k) {q : Word} (hq : TablePage R dir q) {i : Nat}
    (hi : i < 4096) : ¬ InPage q (slot dir i) := by
  have hval := h.toNat_slot hi
  have htop := hq.le_top
  have hend := R.top_le
  have hapart := hq.apart
  unfold InPage
  bv_omega

theorem mmu_pde (h : Tables R dir l k) (hmmu : KernMapped R.top mmu) {i : Nat} (hi : i < 4096) :
    mmu (slot (p2v dir) i) = some (slot dir i) := by
  have htop := h.dir_le_top
  rw [slot_p2v]
  apply hmmu.kern
  rw [h.toNat_slot hi]
  omega

/-! ## walkpgdir -/

theorem walk_new {p : Word} (h : Tables R dir (p :: l) k) (hmmu : KernMapped R.top mmu)
    {va : Word} (hone : ¬ k.mem (slot dir (pdx va)) &&& 1 = 1) :
    walkpgdir mmu (p2v dir) va true k = .ok (slot p (ptx va), newTable k dir p (pdx va)) := by
  have hp : p ≠ 0 := h.free.2.1
  have hmap := h.mmu_pde hmmu (pdx_lt va)
  unfold walkpgdir
  simp only [add_PDX, load_run hmap, (kalloc_cons h.free).1, store_run hmap, add_PTX]
  rw [ok_bind, if_neg hone, if_neg (by decide), if_neg hp]
  rfl

section NewTable

variable {p : Word} {i : Nat}

theorem newTable_entry (h : Tables R dir (p :: l) k) (hi : i < 4096) {j : Nat} (hj : j < 4096) :
    (newTable k dir p i).mem (slot dir j) =
      if j = i then coarsePde (v2p p) else k.mem (slot dir j) := by
  have hp := h.free_page p (List.mem_cons_self ..)
  show Function.update _ _ _ (slot dir j) = _
  by_cases hij : j = i
  · rw [hij, Function.update_self, if_pos rfl]
  · have hne : slot dir j ≠ slot dir i := by
      intro he
      have hv := h.toNat_slot hj
      have hv' := h.toNat_slot hi
      rw [he] at hv
      omega
    rw [Function.update_of_ne hne, if_neg hij, memset_of_notInPage _ _ (h.slot_notInPage hp hj)]

theorem newTable_tableAt (h : Tables R dir (p :: l) k) (hi : i < 4096) {j : Nat}
    (hj : j < 4096) : tableAt (newTable k dir p i).mem dir j =
      if j = i then some (v2p p) else tableAt k.mem dir j := by
  have hp := h.free_page p (List.mem_cons_self ..)
  rw [tableAt, h.newTable_entry hi hj]
  by_cases hij : j = i
  · rw [if_pos hij, if_pos hij, (tableOf_coarsePde hp.aligned).2]
  · rw [if_neg hij, if_neg hij, tableAt]

/-- Outside the directory, only the new page table changes. -/
theorem newTable_mem (h : Tables R dir (p :: l) k) (hi : i < 4096) {q a : Word}
    (hq : TablePage R dir q) (ha : InPage q a) :
    (newTable k dir p i).mem a = memset k.mem p 0 4096 a := by
  apply Function.update_of_ne
  rintro rfl
  exact h.slot_notInPage hq hi ha

theorem newTable_other (h : Tables R dir (p :: l) k) (hi : i < 4096) {q a : Word}
    (hq : TablePage R dir q) (hne : v2p p ≠ q) (ha : InPage q a) :
    (newTable k dir p i).mem a = k.mem a := by
  have hp := h.free_page p (List.mem_cons_self ..)
  rw [h.newTable_mem hi hq ha,
    memset_of_notInPage _ _ (hp.toPhysPage.disjoint hq.toPhysPage hne ha)]

/-- A free page becomes a page table. -/
theorem newTable_tables (h : Tables R dir (p :: l) k) (hi : i < 4096) :
    Tables R dir l (newTable k dir p i) := by
  have hp := h.free_page p (List.mem_cons_self ..)
  obtain ⟨hpl, hnd⟩ := List.nodup_cons.mp h.free_nodup
  have hne : ∀ r ∈ l, v2p p ≠ v2p r := fun r hr he => hpl (v2p_inj he ▸ hr)
  have htab : ∀ {j q}, j < 4096 → tableAt (newTable k dir p i).mem dir j = some q →
      j = i ∧ v2p p = q ∨ j ≠ i ∧ tableAt k.mem dir j = some q := by
    intro j q hj hq
    rw [h.newTable_tableAt hi hj] at hq
    by_cases hij : j = i
    · rw [if_pos hij] at hq
      exact .inl ⟨hij, Option.some.inj hq⟩
    · rw [if_neg hij] at hq
      exact .inr ⟨hij, hq⟩
  refine ⟨h.dir_aligned, h.dir_le_top, ?_, ?_, ?_, hnd,
    fun r hr => h.free_page r (List.mem_cons_of_mem p hr), ?_⟩
  · intro j q hj hq
    cases htab hj hq with
    | inl hnew => exact hnew.2 ▸ hp
    | inr hold => exact h.table_page j q hj hold.2
  · intro j j' q hj hj' hq hq'
    have hfree := fun j hj hq => h.table_free j q hj hq p (List.mem_cons_self ..)
    rcases htab hj hq with ⟨hji, hpq⟩ | ⟨-, hold⟩
    · rcases htab hj' hq' with ⟨hji', -⟩ | ⟨-, hold'⟩
      · rw [hji, hji']
      · exact absurd hpq (hfree j' hj' hold')
    · rcases htab hj' hq' with ⟨-, hpq'⟩ | ⟨-, hold'⟩
      · exact absurd hpq' (hfree j hj hold)
      · exact h.table_inj j j' q hj hj' hold hold'
  · apply Chain.congr h.free.2.2
    intro r hr
    have hr' := h.free_page r (List.mem_cons_of_mem p hr)
    exact h.newTable_other hi hr' (hne r hr) (inPage_self _)
  · intro j q hj hq r hr
    rcases htab hj hq with ⟨-, rfl⟩ | ⟨-, hold⟩
    · exact (hne r hr).symm
    · exact h.table_free j q hj hold r (List.mem_cons_of_mem p hr)

end NewTable

/-! ## The entries of page tables -/

section SetPte

variable {q pa : Word} {i j : Nat}

theorem setPte_other (h : Tables R dir l k) (hi : i < 4096) (hq : tableAt k.mem dir i = some q)
    (hj : j < 256) {a : Word} (ha : ¬ InPage q a) : (setPte k q pa j).mem a = k.mem a := by
  apply Function.update_of_ne
  rintro rfl
  exact ha (slot_inPage (h.table_page i q hi hq).toPhysPage hj)

theorem setPte_tableAt (h : Tables R dir l k) (hi : i < 4096) (hq : tableAt k.mem dir i = some q)
    (hj : j < 256) {i' : Nat} (hi' : i' < 4096) :
    tableAt (setPte k q pa j).mem dir i' = tableAt k.mem dir i' :=
  congrArg tableOf (h.setPte_other hi hq hj (h.slot_notInPage (h.table_page i q hi hq) hi'))

theorem setPte_tables (h : Tables R dir l k) (hi : i < 4096)
    (hq : tableAt k.mem dir i = some q) (hj : j < 256) : Tables R dir l (setPte k q pa j) := by
  have hpage := h.table_page i q hi hq
  have htab : ∀ i', i' < 4096 → tableAt (setPte k q pa j).mem dir i' = tableAt k.mem dir i' :=
    fun i' hi' => h.setPte_tableAt hi hq hj hi'
  refine ⟨h.dir_aligned, h.dir_le_top, ?_, ?_, ?_, h.free_nodup, h.free_page, ?_⟩
  · intro i' q' hi' hq'
    exact h.table_page i' q' hi' ((htab i' hi').symm.trans hq')
  · intro i' j' q' hi' hj' hq' hq''
    exact h.table_inj i' j' q' hi' hj' ((htab i' hi').symm.trans hq') ((htab j' hj').symm.trans hq'')
  · apply h.free.congr
    intro p hp
    exact h.setPte_other hi hq hj (hpage.toPhysPage.disjoint (h.free_page p hp).toPhysPage
      (h.table_free i q hi hq p hp).symm (inPage_self _))
  · intro i' q' hi' hq'
    exact h.table_free i' q' hi' ((htab i' hi').symm.trans hq')

end SetPte

end Tables

namespace Directory

/-- The walk through a directory. -/
theorem translate_eq (h : Directory R dir l k) (va : Word) :
    translate k.mem dir va =
      (tableAt k.mem dir (pdx va)).bind fun q => translatePte (k.mem (slot q (ptx va))) va := by
  have hbase : dir &&& 0xffffc000 = dir := by
    have hdir := h.dir_aligned
    apply BitVec.eq_of_toNat_eq
    rw [show (0xffffc000 : Word) = ~~~(BitVec.ofNat 32 (2 ^ 14 - 1)) from rfl, toNat_and_not_low]
    omega
  rw [translate, hbase, add_PDX, translateBy, tableAt, tableOf]
  cases h.entry _ (pdx_lt va) with
  | inl hnone =>
      rw [hnone, if_neg (by decide), if_neg (by decide), if_neg (by decide)]
      rfl
  | inr hsome =>
      rw [hsome, if_pos rfl, if_pos rfl, add_PTX]
      rfl

/-! ## walkpgdir in a directory without sections -/

/-- An entry of the directory has its first bit set if it refers to a page table. -/
theorem and_one_iff (h : Directory R dir l k) {i : Nat} (hi : i < 4096) :
    k.mem (slot dir i) &&& 1 = 1 ↔ (tableAt k.mem dir i).isSome = true := by
  have hone : k.mem (slot dir i) &&& 1 = k.mem (slot dir i) &&& 3 &&& 1 := by
    rw [BitVec.and_assoc]
    rfl
  rw [hone, tableAt, tableOf]
  cases h.entry i hi with
  | inl hnone =>
      rw [hnone, if_neg (by decide)]
      decide
  | inr hsome =>
      rw [hsome, if_pos rfl]
      exact iff_of_true rfl rfl

/-- The mask of `walkpgdir` gives the page of the table. -/
theorem and_mask (h : Directory R dir l k) {i : Nat} (hi : i < 4096) {q : Word}
    (hq : tableAt k.mem dir i = some q) : k.mem (slot dir i) &&& 0xfffff800 = q := by
  have hpage := (h.table_page i q hi hq).aligned
  rw [tableAt, tableOf] at hq
  cases h.entry i hi with
  | inl hnone =>
      rw [hnone, if_neg (by decide)] at hq
      cases hq
  | inr hsome =>
      rw [hsome, if_pos rfl] at hq
      have hval := Option.some.inj hq
      have hfine := toNat_and_not_low (k.mem (slot dir i)) 10
      have hcoarse := toNat_and_not_low (k.mem (slot dir i)) 11
      rw [show ~~~(BitVec.ofNat 32 (2 ^ 10 - 1)) = (0xfffffc00 : Word) from rfl, hval] at hfine
      rw [show ~~~(BitVec.ofNat 32 (2 ^ 11 - 1)) = (0xfffff800 : Word) from rfl] at hcoarse
      apply BitVec.eq_of_toNat_eq
      unfold Aligned at hpage
      omega

/-- `walkpgdir` on an address whose page table is there. -/
theorem walk_hit (h : Directory R dir l k) (hmmu : KernMapped R.top mmu) {va q : Word}
    (hq : tableAt k.mem dir (pdx va) = some q) (alloc : Bool) :
    walkpgdir mmu (p2v dir) va alloc k = .ok (slot q (ptx va), k) := by
  have hone := (h.and_one_iff (pdx_lt va)).mpr (by rw [hq]; rfl)
  unfold walkpgdir
  simp only [add_PDX, load_run (h.mmu_pde hmmu (pdx_lt va))]
  rw [ok_bind, if_pos hone, add_PTX, h.and_mask (pdx_lt va) hq]
  rfl

/-- `walkpgdir` on an address without a page table, when it may not make one or there
is no free page. -/
theorem walk_none (h : Directory R dir l k) (hmmu : KernMapped R.top mmu) {va : Word}
    (hq : tableAt k.mem dir (pdx va) = none) {alloc : Bool} (hno : alloc = false ∨ l = []) :
    walkpgdir mmu (p2v dir) va alloc k = .ok (0, k) := by
  have hone : ¬ k.mem (slot dir (pdx va)) &&& 1 = 1 := by
    rw [h.and_one_iff (pdx_lt va), hq]
    decide
  unfold walkpgdir
  simp only [add_PDX, load_run (h.mmu_pde hmmu (pdx_lt va))]
  rw [ok_bind, if_neg hone]
  cases alloc with
  | false => rfl
  | true =>
      obtain rfl := hno.resolve_left Bool.noConfusion
      rw [if_neg (by decide), kalloc_nil h.free]
      rfl

/-- `walkpgdir` on an address without a page table, with a free page for one. -/
theorem walk_miss {p : Word} (h : Directory R dir (p :: l) k) (hmmu : KernMapped R.top mmu)
    {va : Word} (hq : tableAt k.mem dir (pdx va) = none) :
    walkpgdir mmu (p2v dir) va true k = .ok (slot p (ptx va), newTable k dir p (pdx va)) := by
  apply h.walk_new hmmu
  rw [h.and_one_iff (pdx_lt va), hq]
  decide

theorem newTable_directory {p : Word} {i : Nat} (h : Directory R dir (p :: l) k) (hi : i < 4096) :
    Directory R dir l (newTable k dir p i) := by
  refine ⟨h.newTable_tables hi, fun j hj => ?_⟩
  rw [h.newTable_entry hi hj]
  by_cases hij : j = i
  · rw [if_pos hij]
    exact .inr (tableOf_coarsePde (h.free_page p (List.mem_cons_self ..)).aligned).1
  · rw [if_neg hij]
    exact h.entry j hj

/-- A new page table maps nothing. -/
theorem newTable_translate {p : Word} {i : Nat} (h : Directory R dir (p :: l) k) (hi : i < 4096)
    (hnone : tableAt k.mem dir i = none) (va : Word) :
    translate (newTable k dir p i).mem dir va = translate k.mem dir va := by
  have hp := h.free_page p (List.mem_cons_self ..)
  rw [(h.newTable_directory hi).translate_eq, h.translate_eq, h.newTable_tableAt hi (pdx_lt va)]
  by_cases hva : pdx va = i
  · rw [if_pos hva, hva, hnone, Option.bind_some,
      h.newTable_mem hi hp (slot_inPage hp.toPhysPage (ptx_lt va)),
      memset_zero _ hp.toPhysPage (ptx_lt va)]
    rfl
  · rw [if_neg hva]
    cases hq : tableAt k.mem dir (pdx va) with
    | none => rfl
    | some q =>
        have hq' := h.table_page _ q (pdx_lt va) hq
        have hpq := h.table_free _ q (pdx_lt va) hq p (List.mem_cons_self ..)
        rw [Option.bind_some, Option.bind_some,
          h.newTable_other hi hq' hpq (slot_inPage hq'.toPhysPage (ptx_lt va))]

theorem setPte_directory {q pa : Word} {i j : Nat} (h : Directory R dir l k) (hi : i < 4096)
    (hq : tableAt k.mem dir i = some q) (hj : j < 256) : Directory R dir l (setPte k q pa j) := by
  refine ⟨h.setPte_tables hi hq hj, fun i' hi' => ?_⟩
  rw [h.setPte_other hi hq hj (h.slot_notInPage (h.table_page i q hi hq) hi')]
  exact h.entry i' hi'

/-- The entry maps its page, and the other pages stay as they were. -/
theorem setPte_translate (h : Directory R dir l k) {q pa a : Word}
    (hq : tableAt k.mem dir (pdx a) = some q) (hpa : Aligned pa) (va : Word) :
    translate (setPte k q pa (ptx a)).mem dir va =
      if va.toNat / 4096 = a.toNat / 4096 then some (pa + BitVec.ofNat 32 (va.toNat % 4096))
      else translate k.mem dir va := by
  have hpage := h.table_page _ q (pdx_lt a) hq
  rw [(h.setPte_directory (pdx_lt a) hq (ptx_lt a)).translate_eq, h.translate_eq,
    h.setPte_tableAt (pdx_lt a) hq (ptx_lt a) (pdx_lt va), vpn_eq va, vpn_eq a]
  have hlt := ptx_lt va
  have hlt' := ptx_lt a
  by_cases hi : pdx va = pdx a
  · rw [hi, hq, Option.bind_some, Option.bind_some]
    by_cases hj : ptx va = ptx a
    · rw [if_pos (by omega), hj, ← translatePte_pagePte hpa]
      exact congrArg (translatePte · va) (Function.update_self ..)
    · have hv := Vm.toNat_slot hpage.toPhysPage hlt
      have hv' := Vm.toNat_slot hpage.toPhysPage hlt'
      have hne : slot q (ptx va) ≠ slot q (ptx a) := by
        intro he
        rw [he] at hv
        omega
      rw [if_neg (by omega)]
      exact congrArg (translatePte · va) (Function.update_of_ne hne ..)
  · rw [if_neg (by omega)]
    cases hq' : tableAt k.mem dir (pdx va) with
    | none => rfl
    | some q' =>
        have hpage' := h.table_page _ q' (pdx_lt va) hq'
        have hne : q ≠ q' := by
          rintro rfl
          exact hi (h.table_inj _ _ q (pdx_lt va) (pdx_lt a) hq' hq)
        rw [Option.bind_some, Option.bind_some, h.setPte_other (pdx_lt a) hq (ptx_lt a)
          (hpage.toPhysPage.disjoint hpage'.toPhysPage hne
            (slot_inPage hpage'.toPhysPage (ptx_lt va)))]

/-! ## mappages -/

/-- From `k` on, `m` pages from page `n` on were mapped to `pa` and the pages after it. -/
structure Maps (R : Region) (dir : Word) (k : Kmem) (n m : Nat) (pa : Word) (l₁ : List Word)
    (k₁ : Kmem) : Prop where
  directory : Directory R dir l₁ k₁
  mapped : ∀ x : Word, n ≤ x.toNat / 4096 → x.toNat / 4096 < n + m → translate k₁.mem dir x =
    some (pa + BitVec.ofNat 32 (4096 * (x.toNat / 4096 - n)) + BitVec.ofNat 32 (x.toNat % 4096))
  frame : ∀ x : Word, x.toNat / 4096 < n ∨ n + m ≤ x.toNat / 4096 →
    translate k₁.mem dir x = translate k.mem dir x

/-- A walk that fails maps nothing. -/
theorem Maps.zero {n : Nat} {pa : Word} {l₁ : List Word} {k₁ : Kmem} (h : Directory R dir l₁ k₁)
    (hsame : ∀ x, translate k₁.mem dir x = translate k.mem dir x) :
    Maps R dir k n 0 pa l₁ k₁ :=
  ⟨h, fun x hlow hhigh => by omega, fun x _ => hsame x⟩

/-- One page, and then the pages after it. -/
theorem Maps.cons {n m : Nat} {pa : Word} {l₁ l₂ : List Word} {k₁ k₂ : Kmem}
    (h₁ : Maps R dir k n 1 pa l₁ k₁) (h₂ : Maps R dir k₁ (n + 1) m (pa + PGSIZE) l₂ k₂) :
    Maps R dir k n (m + 1) pa l₂ k₂ := by
  refine ⟨h₂.directory, fun x hlow hhigh => ?_, fun x hout => ?_⟩
  · by_cases hx : x.toNat / 4096 = n
    · rw [h₂.frame x (by omega), h₁.mapped x hlow (by omega)]
    · obtain ⟨y, hy⟩ : ∃ y, x.toNat / 4096 = n + 1 + y := ⟨x.toNat / 4096 - (n + 1), by omega⟩
      rw [h₂.mapped x (by omega) (by omega), hy, show n + 1 + y - (n + 1) = y by omega,
        show n + 1 + y - n = y + 1 by omega, ofNat_pages_succ, BitVec.add_assoc pa]
  · rw [h₂.frame x (by omega), h₁.frame x (by omega)]

/-- A round of the loop of `mappages` maps its page, or fails if there is no entry for
it. -/
theorem mapLoop_round (h : Directory R dir l k) (hmmu : LowMapped R.top mmu) {a pa : Word}
    (hpa : Aligned pa) {n : Nat} (hn : a.toNat / 4096 = n) :
    (∃ l₁ k₁, Maps R dir k n 0 pa l₁ k₁ ∧
      (0 < R.low → tableAt k.mem dir (pdx a) = none ∧ l = []) ∧
      ∀ last fuel, mapLoop mmu (p2v dir) last (fuel + 1) a pa k = .ok (false, k₁)) ∨
    (∃ l₁ k₁, Maps R dir k n 1 pa l₁ k₁ ∧ (tableAt k.mem dir (pdx a) ≠ none ∨ l ≠ []) ∧
      ∀ last fuel, mapLoop mmu (p2v dir) last (fuel + 1) a pa k =
        if last ≤ a then .ok (true, k₁)
        else mapLoop mmu (p2v dir) last fuel (a + PGSIZE) (pa + PGSIZE) k₁) := by
  have hset : ∀ {l₁ k₁ q}, Directory R dir l₁ k₁ → tableAt k₁.mem dir (pdx a) = some q →
      (∀ x, translate k₁.mem dir x = translate k.mem dir x) →
      Maps R dir k n 1 pa l₁ (setPte k₁ q pa (ptx a)) := by
    intro l₁ k₁ q hd hq hsame
    have htr := hd.setPte_translate hq hpa
    refine ⟨hd.setPte_directory (pdx_lt a) hq (ptx_lt a), fun x hlow hhigh => ?_, fun x hout => ?_⟩
    · have hx : x.toNat / 4096 = n := by omega
      rw [htr, if_pos (hx.trans hn.symm), hx, Nat.sub_self]
      apply congrArg some
      bv_omega
    · rw [htr, if_neg (by omega), hsame]
  cases hq : tableAt k.mem dir (pdx a) with
  | some q =>
      have hwalk := h.walk_hit hmmu.toKernMapped hq true
      by_cases hzero : slot q (ptx a) = 0
      · -- the page table is the page at 0, and the entry its first
        refine .inl ⟨l, k, Maps.zero h fun _ => rfl, fun hlow => ?_, fun last fuel => ?_⟩
        · exact absurd hzero
            ((h.table_page _ q (pdx_lt a) hq).toPhysPage.slot_ne_zero hlow (ptx_lt a))
        · rw [mapLoop, hwalk, ok_bind]
          exact if_pos hzero
      · have hmap := ((h.table_page _ q (pdx_lt a) hq).toPhysPage.mmu_pte hmmu (ptx_lt a)).1
        refine .inr ⟨l, _, hset h hq fun _ => rfl, .inl (by simp), fun last fuel => ?_⟩
        rw [mapLoop, hwalk, ok_bind]
        show (if _ then _ else _) = _
        rw [if_neg hzero, load_run hmap, ok_bind, store_run hmap, ok_bind]
        rfl
  | none =>
      cases l with
      | nil =>
          refine .inl ⟨[], k, Maps.zero h fun _ => rfl, fun _ => ⟨rfl, rfl⟩, fun last fuel => ?_⟩
          rw [mapLoop, h.walk_none hmmu.toKernMapped hq (.inr rfl), ok_bind]
          rfl
      | cons p l =>
          have hpage := (h.free_page p (List.mem_cons_self ..)).toPhysPage
          have hne := hpage.slot_kern_ne_zero (ptx_lt a)
          have hmap := (hpage.mmu_pte hmmu (ptx_lt a)).2
          rw [p2v_v2p] at hne hmap
          have hnew : tableAt (newTable k dir p (pdx a)).mem dir (pdx a) = some (v2p p) := by
            rw [h.newTable_tableAt (pdx_lt a) (pdx_lt a), if_pos rfl]
          refine .inr ⟨l, _, hset (h.newTable_directory (pdx_lt a)) hnew
            (h.newTable_translate (pdx_lt a) hq), .inr (List.cons_ne_nil p l), fun last fuel => ?_⟩
          rw [mapLoop, h.walk_miss hmmu.toKernMapped hq, ok_bind]
          show (if _ then _ else _) = _
          rw [if_neg hne, load_run hmap, ok_bind, store_run hmap, ok_bind]
          rfl

/-- The loop of `mappages` maps some of the pages from `n` to `n + c`, from the first on,
and all of them if it does not fail.  It maps none if there is no page table for the first
and no page for one. -/
theorem mapLoop_maps (hmmu : LowMapped R.top mmu) {last : Word} (hmod : last.toNat % 4096 = 0) :
    ∀ {c fuel n : Nat} {l : List Word} {k : Kmem} {a pa : Word}, Directory R dir l k →
    Aligned pa → a.toNat = 4096 * n → n + c < 2 ^ 20 → last.toNat / 4096 - n = c → c < fuel →
    ∃ b m l₁ k₁, mapLoop mmu (p2v dir) last fuel a pa k = .ok (b, k₁) ∧
      Maps R dir k n m pa l₁ k₁ ∧ m ≤ c + 1 ∧ (b = true ↔ m = c + 1) ∧
      (0 < R.low → (m = 0 ↔ tableAt k.mem dir (pdx a) = none ∧ l = [])) := by
  intro c
  induction c with
  | zero =>
      intro fuel n l k a pa h hpa ha hn hlast hfuel
      obtain ⟨fuel, rfl⟩ : ∃ m, fuel = m + 1 := ⟨fuel - 1, by omega⟩
      rcases h.mapLoop_round hmmu (a := a) hpa (n := n) (by omega) with
        ⟨l₁, k₁, hmaps, hfull, hrun⟩ | ⟨l₁, k₁, hmaps, hroom, hrun⟩
      · exact ⟨false, 0, l₁, k₁, hrun last fuel, hmaps, by omega, by simp,
          fun hlow => iff_of_true rfl (hfull hlow)⟩
      · have hle : last ≤ a := by
          rw [BitVec.le_def]
          omega
        exact ⟨true, 1, l₁, k₁, by rw [hrun, if_pos hle], hmaps, by omega, by simp,
          fun _ => iff_of_false Nat.one_ne_zero (not_and_or.mpr hroom)⟩
  | succ c ih =>
      intro fuel n l k a pa h hpa ha hn hlast hfuel
      obtain ⟨fuel, rfl⟩ : ∃ m, fuel = m + 1 := ⟨fuel - 1, by omega⟩
      rcases h.mapLoop_round hmmu (a := a) hpa (n := n) (by omega) with
        ⟨l₁, k₁, hmaps, hfull, hrun⟩ | ⟨l₁, k₁, hmaps, hroom, hrun⟩
      · exact ⟨false, 0, l₁, k₁, hrun last fuel, hmaps, by omega, by simp,
          fun hlow => iff_of_true rfl (hfull hlow)⟩
      · have hnle : ¬ last ≤ a := by
          rw [BitVec.le_def]
          omega
        have hnext := toNat_nextPage ha (show n + 1 < 2 ^ 20 by omega)
        obtain ⟨b, m, l₂, k₂, hrun₂, hmaps₂, hm, hb, -⟩ := ih hmaps.directory hpa.add_PGSIZE hnext
          (by omega) (by omega) (show c < fuel by omega)
        refine ⟨b, m + 1, l₂, k₂, ?_, hmaps.cons hmaps₂, by omega, ?_,
          fun _ => iff_of_false (Nat.succ_ne_zero m) (not_and_or.mpr hroom)⟩
        · rw [hrun, if_neg hnle, hrun₂]
        · rw [hb]
          omega

theorem pdx_PGROUNDDOWN (va : Word) : pdx (PGROUNDDOWN va) = pdx va := by
  unfold pdx
  rw [toNat_PGROUNDDOWN]
  omega

/-- The same for `mappages`. -/
theorem mappages_maps (h : Directory R dir l k) (hmmu : LowMapped R.top mmu) (va size perm : Word)
    {pa : Word} (hpa : Aligned pa) {n c : Nat} (hn : va.toNat / 4096 = n)
    (hc : (va + size - 1).toNat / 4096 - n = c) :
    ∃ b m l₁ k₁, mappages mmu (p2v dir) va size pa perm k = .ok (b, k₁) ∧
      Maps R dir k n m pa l₁ k₁ ∧ m ≤ c + 1 ∧ (b = true ↔ m = c + 1) ∧
      (0 < R.low → (m = 0 ↔ tableAt k.mem dir (pdx va) = none ∧ l = [])) := by
  rw [← pdx_PGROUNDDOWN va]
  have hfirst := toNat_PGROUNDDOWN va
  have hlast := toNat_PGROUNDDOWN (va + size - 1)
  have hlt := va.isLt
  have hlt' := (va + size - 1).isLt
  unfold mappages
  generalize va + size - 1 = e at *
  exact mapLoop_maps (n := n) (a := PGROUNDDOWN va) hmmu (by omega) h hpa (by omega) (by omega)
    (by omega) (by omega)

end Directory

/-- What a call of `mappages` that returns 0 is for.  Page `j` of the range is mapped to page `j`
from `pa` on, no other page changes, and the page tables stay apart. -/
structure Framed (R : Region) (dir : Word) (k k₁ : Kmem) (va size pa : Word) : Prop where
  mapped : ∀ (x : Word) (j : Nat), x.toNat / 4096 = va.toNat / 4096 + j →
    x.toNat / 4096 ≤ (va.toNat + size.toNat - 1) / 4096 → translate k₁.mem dir x =
      some (pa + BitVec.ofNat 32 (4096 * j) + BitVec.ofNat 32 (x.toNat % 4096))
  frame : ∀ x : Word, x.toNat / 4096 < va.toNat / 4096 ∨
    (va.toNat + size.toNat - 1) / 4096 < x.toNat / 4096 →
    translate k₁.mem dir x = translate k.mem dir x
  tables : ∃ l₁, Tables R dir l₁ k₁

/-- `mappages` on a directory without sections. -/
theorem mappages_framed (h : Directory R dir l k) (hmmu : LowMapped R.top mmu)
    (va size perm : Word) {pa : Word} (hpa : Aligned pa) (hsize : 1 ≤ size.toNat)
    (hfit : va.toNat + size.toNat ≤ 2 ^ 32) :
    ∃ b k₁, mappages mmu (p2v dir) va size pa perm k = .ok (b, k₁) ∧
      (b = true → Framed R dir k k₁ va size pa) := by
  have hend : (va + size - 1).toNat = va.toNat + size.toNat - 1 := by bv_omega
  obtain ⟨b, m, l₁, k₁, hrun, hmaps, -, hb, -⟩ :=
    h.mappages_maps hmmu va size perm hpa rfl rfl
  refine ⟨b, k₁, hrun, fun htrue => ?_⟩
  have hm := hb.mp htrue
  rw [hend] at hm
  refine ⟨fun x j hx hle => ?_, fun x hout => ?_, l₁, hmaps.directory.toTables⟩
  · rw [hmaps.mapped x (by omega) (by omega), hx, Nat.add_sub_cancel_left]
  · exact hmaps.frame x (by omega)

section Instances

/-- The memory that `EntryPageTable` maps, from extended memory on. -/
def entryRegion : Region :=
  { low := EXTMEM.toNat
    top := (v2p (p2v ENTRYMEM)).toNat
    low_le := by decide
    top_le := by decide }

/-- A directory at `0x4000` that is empty but for its first entry, and one free page. -/
def loneEntry (d : Word) : Kmem :=
  { mem := fun a => if a = 0x4000 then d else 0, freelist := 0xc0010000 }

theorem loneEntry_slot (d : Word) {i : Nat} (hi : i < 4096) :
    (loneEntry d).mem (slot 0x4000 i) = if i = 0 then d else 0 := by
  show (if slot 0x4000 i = 0x4000 then d else 0) = _
  congr 1
  apply propext
  unfold slot
  constructor
  · intro he
    bv_omega
  · rintro rfl
    rfl

/-- A directory at `0x4000` without page tables. -/
theorem tables_of_none {l : List Word} {k : Kmem}
    (hnone : ∀ i, i < 4096 → tableAt k.mem 0x4000 i = none) (hfree : Free k l) (hnd : l.Nodup)
    (hpage : ∀ p ∈ l, TablePage entryRegion 0x4000 (v2p p)) : Tables entryRegion 0x4000 l k where
  dir_aligned := by decide
  dir_le_top := by decide
  table_page i q hi hq := by cases (hnone i hi).symm.trans hq
  table_inj i j q hi hj hq := by cases (hnone i hi).symm.trans hq
  free := hfree
  free_nodup := hnd
  free_page := hpage
  table_free i q hi hq := by cases (hnone i hi).symm.trans hq

theorem loneEntry_tables {d : Word} (hd : d &&& 3 ≠ 1) :
    Tables entryRegion 0x4000 [0xc0010000] (loneEntry d) := by
  refine tables_of_none (fun i hi => ?_) ⟨rfl, by decide, rfl⟩ (by decide) fun p hp => ?_
  · rw [tableAt, loneEntry_slot d hi, tableOf]
    apply if_neg
    by_cases hzero : i = 0
    · rwa [if_pos hzero]
    · rw [if_neg hzero]
      decide
  · rw [List.mem_singleton.mp hp]
    exact ⟨⟨by decide, by decide, by decide⟩, by decide⟩

theorem loneEntry_directory : Directory entryRegion 0x4000 [0xc0010000] (loneEntry 0) := by
  refine ⟨loneEntry_tables (by decide), fun i hi => .inl ?_⟩
  rw [loneEntry_slot 0 hi, ite_self]
  decide

/-- Entry by entry, the directory that is left when a page table takes the place of the lone
entry. -/
theorem loneEntry_newTable {d : Word} (hd : d &&& 3 ≠ 1) :
    Directory entryRegion 0x4000 [] (newTable (loneEntry d) 0x4000 0xc0010000 0) := by
  have htab := loneEntry_tables hd
  refine ⟨htab.newTable_tables (by decide), fun i hi => ?_⟩
  rw [htab.newTable_entry (by decide) hi, loneEntry_slot d hi]
  by_cases hzero : i = 0
  · rw [if_pos hzero]
    exact .inr (by decide)
  · rw [if_neg hzero, if_neg hzero]
    exact .inl (by decide)

/-- A call for the first page makes a page table. -/
theorem loneEntry_mappages {d : Word} (hd : d &&& 3 ≠ 1) (hone : ¬ d &&& 1 = 1) :
    mappages (entryMmu .qemu) (p2v 0x4000) 0 1 0 PTE_W (loneEntry d) =
      .ok (true, setPte (newTable (loneEntry d) 0x4000 0xc0010000 0) (v2p 0xc0010000) 0 0) := by
  have htab := loneEntry_tables hd
  have hmmu := entryMmu_lowMapped .qemu
  have hpage := (htab.free_page 0xc0010000 (List.mem_singleton.mpr rfl)).toPhysPage
  have hmap : entryMmu .qemu (slot 0xc0010000 (ptx 0)) = some (slot (v2p 0xc0010000) (ptx 0)) :=
    (hpage.mmu_pte hmmu (j := 0) (by decide)).2
  have hfirst : ¬ (loneEntry d).mem (slot 0x4000 (pdx 0)) &&& 1 = 1 := by
    rw [loneEntry_slot d (by decide)]
    exact hone
  have hwalk := htab.walk_new hmmu.toKernMapped hfirst
  show mapLoop _ _ 0 (2 ^ 20 + 1) 0 0 _ = _
  rw [mapLoop, hwalk, ok_bind]
  show (if slot 0xc0010000 0 = 0 then _ else _) = _
  rw [if_neg (by decide), load_run hmap, ok_bind, store_run hmap, ok_bind]
  rfl

/-- An empty directory at `0x4000`, and two free pages. -/
def emptyDir : Kmem :=
  { mem := fun a => if a = 0x10000 then 0xc0020000 else 0, freelist := 0xc0010000 }

theorem emptyDir_directory :
    Directory entryRegion 0x4000 [0xc0010000, 0xc0020000] emptyDir := by
  have hslot : ∀ i, i < 4096 → emptyDir.mem (slot 0x4000 i) = 0 := by
    intro i hi
    refine if_neg ?_
    unfold slot
    bv_omega
  refine ⟨tables_of_none (fun i hi => ?_) ⟨rfl, by decide, rfl, by decide, rfl⟩ (by decide) ?_,
    fun i hi => ?_⟩
  · rw [tableAt, hslot i hi]
    rfl
  · intro p hp
    rcases List.mem_cons.mp hp with rfl | hp
    · exact ⟨⟨by decide, by decide, by decide⟩, by decide⟩
    · rw [List.mem_singleton.mp hp]
      exact ⟨⟨by decide, by decide, by decide⟩, by decide⟩
  · rw [hslot i hi]
    exact .inl (by decide)

/-- The last page of the first MB and the page after it, which need two page tables. -/
theorem mappages_framed_twoTables :
    ∃ k₁, mappages (entryMmu .qemu) (p2v 0x4000) 0xff000 0x2000 0x200000 PTE_W emptyDir =
        .ok (true, k₁) ∧
      Framed entryRegion 0x4000 emptyDir k₁ 0xff000 0x2000 0x200000 := by
  have htest : ((mappages (entryMmu .qemu) (p2v 0x4000) 0xff000 0x2000 0x200000 PTE_W
      emptyDir).toOption.map Prod.fst) = some true := by decide +kernel
  obtain ⟨b, k₁, hrun, hframed⟩ := mappages_framed emptyDir_directory (entryMmu_lowMapped .qemu)
    0xff000 0x2000 PTE_W (show Aligned 0x200000 by decide) (by decide) (by decide)
  rw [hrun] at htest
  obtain rfl : b = true := Option.some.inj htest
  exact ⟨k₁, hrun, hframed rfl⟩

/-- The directory has a section for the first MB.  A call for its first page takes the other
pages away. -/
theorem section_not_framed :
    ∃ k₁, Tables entryRegion 0x4000 [0xc0010000] (loneEntry (sectionPde 0)) ∧
      mappages (entryMmu .qemu) (p2v 0x4000) 0 1 0 PTE_W (loneEntry (sectionPde 0)) =
        .ok (true, k₁) ∧
      ¬ Framed entryRegion 0x4000 (loneEntry (sectionPde 0)) k₁ 0 1 0 := by
  have hd : sectionPde 0 &&& 3 ≠ 1 := by decide
  have htab := loneEntry_tables hd
  refine ⟨_, htab, loneEntry_mappages hd (by decide), fun hframed => ?_⟩
  have hdir := loneEntry_newTable hd
  have hnew : tableAt (newTable (loneEntry (sectionPde 0)) 0x4000 0xc0010000 0).mem 0x4000 0 =
      some (v2p 0xc0010000) := by
    rw [htab.newTable_tableAt (by decide) (by decide), if_pos rfl]
  have hp := htab.free_page 0xc0010000 (List.mem_singleton.mpr rfl)
  have hsame := hframed.frame 0x1000 (.inr (by decide))
  -- the page after the first is in the new page table, which is empty
  have hafter := hdir.setPte_translate (a := 0) hnew (show Aligned 0 by decide) 0x1000
  rw [if_neg (by decide), hdir.translate_eq, show pdx 0x1000 = 0 from rfl, hnew, Option.bind_some,
    htab.newTable_mem (by decide) hp (slot_inPage hp.toPhysPage (ptx_lt 0x1000)),
    memset_zero _ hp.toPhysPage (ptx_lt 0x1000)] at hafter
  exact absurd (hafter.symm.trans hsame) (by decide)

end Instances

end Xv6Arm.Vm
