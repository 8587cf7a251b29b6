import Xv6Arm.Vm.Tables
import Xv6Arm.Lib.Fallible

/-!
# What walkpgdir and mappages do

Both run under a translation that maps the memory they use at its own addresses and
at the kernel's, as `EntryPageTable` does for the first 4 MB.

A call either maps its pages or runs out of free pages.  Every page table it
makes takes one free page, so the number of page tables and of free pages
together stays the same.  A call that fails has used up the free pages, and lacks
the page table of one of its pages.
-/

namespace Xv6Arm.Vm

open Fallible (ok_bind)

variable {R : Region} {dir : Word} {tab : Nat → Option Word} {keys : List Nat}
  {f : Nat → Option Word} {l : List Word} {k : Kmem} {mmu : Mmu}

/-! ## Reads and writes -/

theorem load_run {va pa : Word} (h : mmu va = some pa) (mem : Mem) :
    load mmu mem va = .ok (mem pa) := by
  rw [load, h]

theorem store_run {va pa : Word} (h : mmu va = some pa) (mem : Mem) (w : Word) :
    store mmu mem va w = .ok (Function.update mem pa w) := by
  rw [store, h]

theorem slot_p2v (q : Word) (j : Nat) : slot (p2v q) j = p2v (slot q j) := by
  unfold slot p2v
  bv_omega

theorem p2v_v2p (p : Word) : p2v (v2p p) = p := by
  unfold p2v v2p
  bv_omega

/-- The directory can be written at its kernel address. -/
theorem Built.mmu_pde (h : Built R dir tab keys f l k) (hmmu : LowMapped R.top mmu) {i : Nat}
    (hi : i < 4096) :
    mmu (slot (p2v dir) i) = some (slot dir i) := by
  have hdir := h.dir_low
  rw [slot_p2v]
  apply hmmu.kern
  have hlow := R.low_le
  rw [toNat_dirSlot hdir hi]
  omega

/-- A page table can be written at its physical address, and at the kernel's. -/
theorem PhysPage.mmu_pte {q : Word} (hq : PhysPage R q) (hmmu : LowMapped R.top mmu) {j : Nat}
    (hj : j < 256) :
    mmu (slot q j) = some (slot q j) ∧ mmu (slot (p2v q) j) = some (slot q j) := by
  have htop := hq.le_top
  have hlt : (slot q j).toNat < R.top := by
    rw [toNat_slot hq hj]
    omega
  rw [slot_p2v]
  exact ⟨hmmu.phys _ hlt, hmmu.kern _ hlt⟩

/-! ## walkpgdir -/

/-- A directory entry says whether there is a page table. -/
theorem pdeOf_and_one {o : Option Word} (ho : ∀ q, o = some q → Aligned q) :
    pdeOf o &&& 1 = 1 ↔ o.isSome = true := by
  cases o with
  | none =>
      constructor
      · intro h
        exact absurd h (by decide)
      · intro h
        cases h
  | some q =>
      have hq := ho q rfl
      have hval := toNat_coarsePde hq
      have hlow := toNat_and_low (coarsePde q) (j := 1) (by decide)
      have hone : coarsePde q &&& 1 = 1 := by
        apply BitVec.eq_of_toNat_eq
        rw [show (1 : Word) = BitVec.ofNat 32 (2 ^ 1 - 1) from rfl, hlow]
        unfold Aligned at hq
        show _ = 1
        omega
      exact ⟨fun _ => rfl, fun _ => hone⟩

/-- `walkpgdir` on an address whose page table is there: the raw physical address
of the entry. -/
theorem walkpgdir_hit (h : Built R dir tab keys f l k) (hmmu : LowMapped R.top mmu) {va q : Word}
    (hq : tab (pdx va) = some q) :
    walkpgdir mmu (p2v dir) va true k = .ok (slot q (ptx va), k) := by
  have hpage := h.tab_page _ q hq
  have hpde := h.pde _ (pdx_lt va)
  have hone := (pdeOf_and_one (o := tab (pdx va)) fun q hq => (h.tab_page _ q hq).aligned).mpr
    (by rw [hq]; rfl)
  rw [hq] at hpde hone
  unfold walkpgdir
  simp only [add_PDX, load_run (h.mmu_pde hmmu (pdx_lt va)), hpde]
  rw [ok_bind, if_pos hone, add_PTX, show pdeOf (some q) = coarsePde q from rfl,
    (coarsePde_and hpage.aligned).2]
  rfl

/-- `walkpgdir` on an address without a page table, with no free page. -/
theorem walkpgdir_full (h : Built R dir tab keys f [] k) (hmmu : LowMapped R.top mmu) {va : Word}
    (hq : tab (pdx va) = none) :
    walkpgdir mmu (p2v dir) va true k = .ok (0, k) := by
  have hpde := h.pde _ (pdx_lt va)
  rw [hq] at hpde
  unfold walkpgdir
  simp only [add_PDX, load_run (h.mmu_pde hmmu (pdx_lt va)), hpde, kalloc_nil h.free]
  rfl

/-- `walkpgdir` on an address without a page table: it takes the first free page
for one, and gives the kernel address of the entry. -/
theorem walkpgdir_miss {p : Word} (h : Built R dir tab keys f (p :: l) k)
    (hmmu : LowMapped R.top mmu) {va : Word} (hq : tab (pdx va) = none) :
    ∃ k₁, walkpgdir mmu (p2v dir) va true k = .ok (slot p (ptx va), k₁) ∧
      Built R dir (Function.update tab (pdx va) (some (v2p p))) (pdx va :: keys) f l k₁ := by
  have hpde := h.pde _ (pdx_lt va)
  have hp : p ≠ 0 := h.free.2.1
  have hmap := h.mmu_pde hmmu (pdx_lt va)
  rw [hq] at hpde
  refine ⟨_, ?_, h.addTable hq (pdx_lt va)⟩
  unfold walkpgdir
  simp only [add_PDX, load_run hmap, hpde, (kalloc_cons h.free).1, store_run hmap, add_PTX]
  have hzero : ¬ pdeOf none &&& 1 = 1 := by decide
  rw [ok_bind, if_neg hzero, if_neg (by decide), if_neg hp]
  rfl

theorem PhysPage.slot_ne_zero {q : Word} (hq : PhysPage R q) (hpos : 0 < R.low) {j : Nat}
    (hj : j < 256) : slot q j ≠ 0 := by
  have hval := toNat_slot hq hj
  have hle := hq.low_le
  intro he
  rw [he] at hval
  simp at hval
  omega

theorem PhysPage.slot_kern_ne_zero {q : Word} (hq : PhysPage R q) {j : Nat} (hj : j < 256) :
    slot (p2v q) j ≠ 0 := by
  have hval := toNat_slot hq hj
  have htop := hq.le_top
  have hend := R.top_le
  rw [slot_p2v, p2v, KERNBASE]
  bv_omega

/-- `walkpgdir` when there is a page table or a free page for one: the pointer it
gives reaches the entry, whichever of the two addresses it is. -/
theorem walkpgdir_run (h : Built R dir tab keys f l k) (hmmu : LowMapped R.top mmu) {va : Word}
    (hroom : tab (pdx va) ≠ none ∨ l ≠ []) :
    ∃ pte q k₁ tab₁ keys₁ l₁, walkpgdir mmu (p2v dir) va true k = .ok (pte, k₁) ∧ pte ≠ 0 ∧
      mmu pte = some (slot q (ptx va)) ∧ tab₁ (pdx va) = some q ∧
      Built R dir tab₁ keys₁ f l₁ k₁ ∧ (∀ i, i ∈ keys₁ ↔ i ∈ keys ∨ i = pdx va) ∧
      keys₁.length + l₁.length = keys.length + l.length := by
  have hdir := h.dir_low
  cases hq : tab (pdx va) with
  | some q =>
      have hpage := h.tab_page _ q hq
      refine ⟨_, q, k, tab, keys, l, walkpgdir_hit h hmmu hq,
        hpage.slot_ne_zero (by omega) (ptx_lt va), (hpage.mmu_pte hmmu (ptx_lt va)).1, hq, h, ?_, rfl⟩
      intro i
      refine ⟨Or.inl, fun hi => hi.elim id ?_⟩
      rintro rfl
      rw [h.keys_iff, hq]
      rfl
  | none =>
      cases l with
      | nil => exact absurd rfl (hroom.resolve_left fun hne => hne hq)
      | cons p l =>
          obtain ⟨k₁, hrun, hbuilt⟩ := walkpgdir_miss h hmmu hq
          have hpage := h.free_page p (List.mem_cons_self ..)
          have hne := hpage.slot_kern_ne_zero (ptx_lt va)
          have hmap := (hpage.mmu_pte hmmu (ptx_lt va)).2
          rw [p2v_v2p] at hne hmap
          refine ⟨_, v2p p, k₁, _, _, l, hrun, hne, hmap, Function.update_self .., hbuilt, ?_, ?_⟩
          · intro i
            rw [List.mem_cons, or_comm]
          · rw [List.length_cons, List.length_cons]
            omega

/-! ## mappages -/

theorem ofNat_pages_succ (y : Nat) :
    (BitVec.ofNat 32 (4096 * (y + 1)) : Word) = PGSIZE + BitVec.ofNat 32 (4096 * y) := by
  rw [Nat.mul_add, Nat.add_comm, BitVec.ofNat_add]
  rfl

/-- `f` with the pages from `n` to `n + c` mapped to `pa` and the pages after
it. -/
def overlay (n c : Nat) (pa : Word) (f : Nat → Option Word) (x : Nat) : Option Word :=
  if n ≤ x ∧ x ≤ n + c then some (pa + BitVec.ofNat 32 (4096 * (x - n))) else f x

theorem overlay_zero (n : Nat) (pa : Word) (f : Nat → Option Word) :
    overlay n 0 pa f = Function.update f n (some pa) := by
  funext x
  unfold overlay
  by_cases hx : x = n
  · rw [hx, Function.update_self, if_pos (by omega), Nat.sub_self]
    congr 1
    bv_omega
  · rw [Function.update_of_ne hx, if_neg (by omega)]

theorem overlay_succ (n c : Nat) (pa : Word) (f : Nat → Option Word) :
    overlay (n + 1) c (pa + PGSIZE) (Function.update f n (some pa)) = overlay n (c + 1) pa f := by
  funext x
  unfold overlay
  by_cases hx : x = n
  · rw [hx, if_neg (by omega), Function.update_self, if_pos (by omega), Nat.sub_self]
    congr 1
    bv_omega
  · rw [Function.update_of_ne hx]
    by_cases hr : n + 1 ≤ x ∧ x ≤ n + 1 + c
    · rw [if_pos hr, if_pos (by omega)]
      obtain ⟨y, rfl⟩ : ∃ y, x = n + 1 + y := ⟨x - (n + 1), by omega⟩
      rw [show n + 1 + y - n = y + 1 by omega, show n + 1 + y - (n + 1) = y by omega,
        ofNat_pages_succ, BitVec.add_assoc]
    · rw [if_neg hr, if_neg (by omega)]

/-- The page tables of the pages from `n` to `n + c`. -/
def Spans (n c i : Nat) : Prop := ∃ x, n ≤ x ∧ x ≤ n + c ∧ x / 256 = i

/-- A call mapped everything: its pages are those of `f`, and the new page tables
are those of the indices in `S`. -/
structure Mapped (R : Region) (dir : Word) (keys : List Nat) (l : List Word) (S : Nat → Prop)
    (f : Nat → Option Word) (tab₁ : Nat → Option Word) (keys₁ : List Nat) (l₁ : List Word)
    (k₁ : Kmem) : Prop where
  built : Built R dir tab₁ keys₁ f l₁ k₁
  keys_iff : ∀ i, i ∈ keys₁ ↔ i ∈ keys ∨ S i
  count : keys₁.length + l₁.length = keys.length + l.length

/-- A call ran out of pages: all of them are page tables, and one is missing. -/
structure Exhausted (keys : List Nat) (l : List Word) (S : Nat → Prop) (keys₁ : List Nat)
    (k₁ : Kmem) : Prop where
  free : Free k₁ []
  nodup : keys₁.Nodup
  keys_sub : ∀ i ∈ keys₁, i ∈ keys ∨ S i
  missing : ∃ i, S i ∧ i ∉ keys₁
  count : keys₁.length = keys.length + l.length

/-- One round of the loop of `mappages`. -/
theorem mapLoop_succ (h : Built R dir tab keys f l k) (hmmu : LowMapped R.top mmu) (last : Word)
    {a pa : Word} (hpa : Aligned pa)
    (hroom : tab (pdx a) ≠ none ∨ l ≠ []) :
    ∃ tab₁ keys₁ l₁ k₁, (∀ n, mapLoop mmu (p2v dir) last (n + 1) a pa k =
        if last ≤ a then .ok (true, k₁)
        else mapLoop mmu (p2v dir) last n (a + PGSIZE) (pa + PGSIZE) k₁) ∧
      Mapped R dir keys l (fun i => i = pdx a)
        (Function.update f (a.toNat / 4096) (some pa)) tab₁ keys₁ l₁ k₁ := by
  obtain ⟨pte, q, k₁, tab₁, keys₁, l₁, hrun, hne, hmap, hq, hbuilt, hkeys, hcount⟩ :=
    walkpgdir_run h hmmu hroom
  have hset := hbuilt.setPte hq (ptx_lt a) hpa
  rw [← vpn_eq] at hset
  refine ⟨tab₁, keys₁, l₁, _, ?_, hset, hkeys, hcount⟩
  intro n
  rw [mapLoop, hrun, ok_bind]
  show (if pte = 0 then _ else _) = _
  rw [if_neg hne, load_run hmap, ok_bind, store_run hmap, ok_bind]
  rfl

/-- The loop of `mappages` without a page table and without a free page. -/
theorem mapLoop_full (h : Built R dir tab keys f [] k) (hmmu : LowMapped R.top mmu)
    {a pa last : Word} (hq : tab (pdx a) = none) (n : Nat) :
    mapLoop mmu (p2v dir) last (n + 1) a pa k = .ok (false, k) := by
  rw [mapLoop, walkpgdir_full h hmmu hq, ok_bind]
  rfl

theorem Exhausted.of_full (h : Built R dir tab keys f [] k) {S : Nat → Prop} {i : Nat}
    (hi : S i) (hq : tab i = none) : Exhausted keys [] S keys k where
  free := h.free
  nodup := h.keys_nodup
  keys_sub _ hj := Or.inl hj
  missing := by
    refine ⟨i, hi, ?_⟩
    rw [h.keys_iff, hq]
    simp
  count := rfl

/-- A call that maps `S` followed by one that maps `S'`. -/
theorem Mapped.trans {S S' T : Nat → Prop} {g : Nat → Option Word} {keys₁ keys₂ : List Nat}
    {l₁ l₂ : List Word} {k₁ k₂ : Kmem} {tab₁ tab₂ : Nat → Option Word}
    (h₁ : Mapped R dir keys l S f tab₁ keys₁ l₁ k₁)
    (h₂ : Mapped R dir keys₁ l₁ S' g tab₂ keys₂ l₂ k₂) (hT : ∀ i, T i ↔ S i ∨ S' i) :
    Mapped R dir keys l T g tab₂ keys₂ l₂ k₂ where
  built := h₂.built
  keys_iff i := by rw [h₂.keys_iff, h₁.keys_iff, hT, or_assoc]
  count := h₂.count.trans h₁.count

/-- A call that maps `S` followed by one that runs out of pages. -/
theorem Mapped.exhausted {S S' T : Nat → Prop} {keys₁ keys₂ : List Nat} {l₁ : List Word}
    {k₁ k₂ : Kmem} {tab₁ : Nat → Option Word} (h₁ : Mapped R dir keys l S f tab₁ keys₁ l₁ k₁)
    (h₂ : Exhausted keys₁ l₁ S' keys₂ k₂) (hT : ∀ i, T i ↔ S i ∨ S' i) :
    Exhausted keys l T keys₂ k₂ where
  free := h₂.free
  nodup := h₂.nodup
  keys_sub i hi := by
    rw [hT, ← or_assoc, ← h₁.keys_iff]
    exact h₂.keys_sub i hi
  missing := by
    obtain ⟨i, hi, hn⟩ := h₂.missing
    exact ⟨i, (hT i).mpr (Or.inr hi), hn⟩
  count := h₂.count.trans h₁.count

theorem spans_zero (n i : Nat) : Spans n 0 i ↔ i = n / 256 := by
  unfold Spans
  constructor
  · rintro ⟨x, h₁, h₂, rfl⟩
    rw [show x = n by omega]
  · rintro rfl
    exact ⟨n, Nat.le_refl _, Nat.le_refl _, rfl⟩

theorem spans_succ (n c i : Nat) : Spans n (c + 1) i ↔ i = n / 256 ∨ Spans (n + 1) c i := by
  unfold Spans
  constructor
  · rintro ⟨x, h₁, h₂, rfl⟩
    by_cases hx : x = n
    · exact Or.inl (by rw [hx])
    · exact Or.inr ⟨x, by omega, by omega, rfl⟩
  · rintro (rfl | ⟨x, h₁, h₂, rfl⟩)
    · exact ⟨n, Nat.le_refl _, by omega, rfl⟩
    · exact ⟨x, by omega, by omega, rfl⟩

/-- The address of the page after page `n`. -/
theorem toNat_nextPage {a : Word} {n : Nat} (ha : a.toNat = 4096 * n) (hn : n + 1 < 2 ^ 20) :
    (a + PGSIZE).toNat = 4096 * (n + 1) := by
  rw [PGSIZE]
  bv_omega

/-- The loop of `mappages` over the pages from `n` to `n + c`. -/
theorem mapLoop_run (hmmu : LowMapped R.top mmu) {last : Word}
    (hmod : last.toNat % 4096 = 0) :
    ∀ {c fuel n : Nat} {tab : Nat → Option Word} {keys : List Nat} {f : Nat → Option Word}
      {l : List Word} {k : Kmem} {a pa : Word}, Built R dir tab keys f l k →
    Aligned pa → a.toNat = 4096 * n → n + c < 2 ^ 20 → last.toNat / 4096 - n = c → c < fuel →
    (∃ tab₁ keys₁ l₁ k₁, mapLoop mmu (p2v dir) last fuel a pa k = .ok (true, k₁) ∧
      Mapped R dir keys l (Spans n c) (overlay n c pa f) tab₁ keys₁ l₁ k₁) ∨
    (∃ keys₁ k₁, mapLoop mmu (p2v dir) last fuel a pa k = .ok (false, k₁) ∧
      Exhausted keys l (Spans n c) keys₁ k₁) := by
  intro c
  induction c with
  | zero =>
      intro fuel n tab keys f l k a pa h hpa ha hn hlast hfuel
      obtain ⟨fuel, rfl⟩ : ∃ m, fuel = m + 1 := ⟨fuel - 1, by omega⟩
      have hvpn : a.toNat / 4096 = n := by omega
      have hpdx : pdx a = n / 256 := by
        unfold pdx
        omega
      by_cases hfull : tab (pdx a) = none ∧ l = []
      · obtain ⟨hq, rfl⟩ := hfull
        exact Or.inr ⟨keys, k, mapLoop_full h hmmu hq fuel,
          Exhausted.of_full h ((spans_zero n _).mpr hpdx) hq⟩
      · obtain ⟨tab₁, keys₁, l₁, k₁, hrun, hmapped⟩ := mapLoop_succ h hmmu last hpa
          (not_and_or.mp hfull)
        have hle : last ≤ a := by
          rw [BitVec.le_def]
          omega
        refine Or.inl ⟨tab₁, keys₁, l₁, k₁, by rw [hrun, if_pos hle], ?_⟩
        rw [overlay_zero, ← hvpn]
        refine ⟨hmapped.built, fun i => ?_, hmapped.count⟩
        rw [hmapped.keys_iff, spans_zero, hpdx, hvpn]
  | succ c ih =>
      intro fuel n tab keys f l k a pa h hpa ha hn hlast hfuel
      obtain ⟨fuel, rfl⟩ : ∃ m, fuel = m + 1 := ⟨fuel - 1, by omega⟩
      have hvpn : a.toNat / 4096 = n := by omega
      have hpdx : pdx a = n / 256 := by
        unfold pdx
        omega
      by_cases hfull : tab (pdx a) = none ∧ l = []
      · obtain ⟨hq, rfl⟩ := hfull
        exact Or.inr ⟨keys, k, mapLoop_full h hmmu hq fuel,
          Exhausted.of_full h ((spans_succ n c _).mpr (Or.inl hpdx)) hq⟩
      · obtain ⟨tab₁, keys₁, l₁, k₁, hrun, hmapped⟩ := mapLoop_succ h hmmu last hpa
          (not_and_or.mp hfull)
        have hnle : ¬ last ≤ a := by
          rw [BitVec.le_def]
          omega
        have hnext := toNat_nextPage ha (show n + 1 < 2 ^ 20 by omega)
        rw [hvpn] at hmapped
        have hT : ∀ i, Spans n (c + 1) i ↔ i = pdx a ∨ Spans (n + 1) c i := by
          intro i
          rw [spans_succ, hpdx]
        rw [hrun, if_neg hnle, ← overlay_succ]
        cases ih hmapped.built hpa.add_PGSIZE hnext (by omega) (by omega) (show c < fuel by omega) with
        | inl hok =>
            obtain ⟨tab₂, keys₂, l₂, k₂, hrun₂, hmapped₂⟩ := hok
            exact Or.inl ⟨tab₂, keys₂, l₂, k₂, hrun₂, hmapped.trans hmapped₂ hT⟩
        | inr hfail =>
            obtain ⟨keys₂, k₂, hrun₂, hex⟩ := hfail
            exact Or.inr ⟨keys₂, k₂, hrun₂, hmapped.exhausted hex hT⟩

/-- `mappages` maps the pages that `[va, va + size)` touches, or the first of them
if `va + size - 1` wraps around. -/
theorem mappages_run (h : Built R dir tab keys f l k) (hmmu : LowMapped R.top mmu)
    {va size pa : Word} (perm : Word) (hpa : Aligned pa) {n c : Nat}
    (hn : va.toNat / 4096 = n) (hc : (va + size - 1).toNat / 4096 - n = c) :
    (∃ tab₁ keys₁ l₁ k₁, mappages mmu (p2v dir) va size pa perm k = .ok (true, k₁) ∧
      Mapped R dir keys l (Spans n c) (overlay n c pa f) tab₁ keys₁ l₁ k₁) ∨
    (∃ keys₁ k₁, mappages mmu (p2v dir) va size pa perm k = .ok (false, k₁) ∧
      Exhausted keys l (Spans n c) keys₁ k₁) := by
  have hfirst := toNat_PGROUNDDOWN va
  have hlast := toNat_PGROUNDDOWN (va + size - 1)
  have hlt := va.isLt
  have hlt' := (va + size - 1).isLt
  unfold mappages
  generalize va + size - 1 = e at *
  exact mapLoop_run (n := n) (a := PGROUNDDOWN va) hmmu (by omega) h hpa (by omega) (by omega)
    (by omega) (by omega)

/-! ## The entries of kmap -/

/-- The first page an entry maps. -/
def KmapEntry.first (e : KmapEntry) : Nat := e.virt.toNat / 4096

/-- The number of pages that follow it. -/
def KmapEntry.more (e : KmapEntry) : Nat :=
  (e.virt + (e.phys_end - e.phys_start) - 1).toNat / 4096 - e.first

/-- `f` with the pages of the entries mapped. -/
def overlayAll (es : List KmapEntry) (f : Nat → Option Word) : Nat → Option Word :=
  es.foldl (fun f e => overlay e.first e.more e.phys_start f) f

/-- The loop of `setupkvm`. -/
theorem mapEntries_run (hmmu : LowMapped R.top mmu) :
    ∀ {es : List KmapEntry} {tab : Nat → Option Word} {keys : List Nat} {f : Nat → Option Word}
      {l : List Word} {k : Kmem}, Built R dir tab keys f l k →
    (∀ e ∈ es, Aligned e.phys_start) →
    (∃ tab₁ keys₁ l₁ k₁, mapEntries mmu (p2v dir) es k = .ok (true, k₁) ∧
      Mapped R dir keys l (fun i => ∃ e ∈ es, Spans e.first e.more i) (overlayAll es f)
        tab₁ keys₁ l₁ k₁) ∨
    (∃ keys₁ k₁, mapEntries mmu (p2v dir) es k = .ok (false, k₁) ∧
      Exhausted keys l (fun i => ∃ e ∈ es, Spans e.first e.more i) keys₁ k₁)
  | [], tab, keys, f, l, k, h, _ => by
      refine Or.inl ⟨tab, keys, l, k, rfl, h, fun i => ?_, rfl⟩
      simp
  | e :: es, tab, keys, f, l, k, h, hal => by
      have hrest : ∀ d ∈ es, Aligned d.phys_start := fun d hd => hal d (List.mem_cons_of_mem e hd)
      have hT : ∀ i, (∃ d ∈ e :: es, Spans d.first d.more i) ↔
          Spans e.first e.more i ∨ ∃ d ∈ es, Spans d.first d.more i := by
        intro i
        rw [List.exists_mem_cons_iff]
      cases mappages_run h hmmu e.perm (hal e (List.mem_cons_self ..)) rfl rfl with
      | inl hok =>
          obtain ⟨tab₁, keys₁, l₁, k₁, hrun, hmapped⟩ := hok
          have hstep : mapEntries mmu (p2v dir) (e :: es) k = mapEntries mmu (p2v dir) es k₁ := by
            rw [mapEntries, hrun, ok_bind]
            rfl
          rw [hstep]
          cases mapEntries_run hmmu hmapped.built hrest with
          | inl hok =>
              obtain ⟨tab₂, keys₂, l₂, k₂, hrun₂, hmapped₂⟩ := hok
              exact Or.inl ⟨tab₂, keys₂, l₂, k₂, hrun₂, hmapped.trans hmapped₂ hT⟩
          | inr hfail =>
              obtain ⟨keys₂, k₂, hrun₂, hex⟩ := hfail
              exact Or.inr ⟨keys₂, k₂, hrun₂, hmapped.exhausted hex hT⟩
      | inr hfail =>
          obtain ⟨keys₁, k₁, hrun, hex⟩ := hfail
          refine Or.inr ⟨keys₁, k₁, ?_, hex.free, hex.nodup, ?_, ?_, hex.count⟩
          · rw [mapEntries, hrun, ok_bind]
            rfl
          · exact fun i hi => (hex.keys_sub i hi).imp_right fun hs => (hT i).mpr (Or.inl hs)
          · obtain ⟨i, hi, hn⟩ := hex.missing
            exact ⟨i, (hT i).mpr (Or.inl hi), hn⟩

end Xv6Arm.Vm
