import Xv6Arm.Vm.Directory

/-!
# Who may use a page

The access check of ARMv6 for the descriptors that `mappages` installs.  A first-level
descriptor puts its memory into a domain, and the domain access control register says for
each domain whether its accesses fail, are checked against the bits `AP` and `APX`, or are
not checked.  `entry.S` writes `0xffffffff` to the register, so no access is checked, and
`mappages` does not use `perm`.
-/

namespace Xv6Arm.Vm

/-! ## The check -/

inductive Mode
  | user
  | privileged
deriving DecidableEq

inductive Access
  | read
  | write
deriving DecidableEq

/-- `PTE_U`. -/
def PTE_U : Word := 4

/-- The domain access control that `entry.S` sets. -/
def DACR : Word := 0xffffffff

/-- What the descriptors of an address say about its accesses. -/
structure Rights where
  domain : BitVec 4
  ap : BitVec 2
  apx : Bool

/-- The rights in a first-level descriptor and, for a page table, in the second-level one.  A
supersection is in domain 0. -/
def rightsBy (mem : Mem) (pde va : Word) : Option Rights :=
  if pde &&& 3 = 1 then
    let pte := mem ((pde &&& 0xfffffc00) + 4 * PTX va)
    if pte &&& 3 = 0 then none
    else some
      { domain := pde.extractLsb' 5 4, ap := pte.extractLsb' 4 2, apx := pte.getLsbD 9 }
  else if pde &&& 3 = 2 then
    some
      { domain := if pde &&& 0x40000 = 0 then pde.extractLsb' 5 4 else 0
        ap := pde.extractLsb' 10 2
        apx := pde.getLsbD 15 }
  else none

/-- The rights for an address under the directory at the physical address `ttb`. -/
def rights (mem : Mem) (ttb va : Word) : Option Rights :=
  rightsBy mem (mem ((ttb &&& 0xffffc000) + 4 * PDX va)) va

/-- The check of `AP` and `APX`. -/
def Rights.permits (r : Rights) : Mode → Access → Bool
  | .privileged, .read => r.ap ≠ 0
  | .privileged, .write => r.ap ≠ 0 ∧ r.apx = false
  | .user, .read => r.ap = 2 ∨ r.ap = 3
  | .user, .write => r.ap = 3 ∧ r.apx = false

/-- The check of an access.  A manager of the domain is not checked, a client is checked against
`AP` and `APX`. -/
def Rights.grants (r : Rights) (dacr : Word) (m : Mode) (a : Access) : Bool :=
  match dacr.extractLsb' (2 * r.domain.toNat) 2 with
  | 3 => true
  | 1 => r.permits m a
  | _ => false

/-- Whether the access goes through. -/
def allows (dacr : Word) (mem : Mem) (ttb va : Word) (m : Mode) (a : Access) : Bool :=
  match rights mem ttb va with
  | none => false
  | some r => r.grants dacr m a

/-- An address is mapped if its descriptors give rights. -/
theorem rights_isSome (mem : Mem) (ttb va : Word) :
    (rights mem ttb va).isSome = (translate mem ttb va).isSome := by
  rw [rights, translate]
  generalize mem ((ttb &&& 0xffffc000) + 4 * PDX va) = pde
  rw [rightsBy, translateBy]
  by_cases hcoarse : pde &&& 3 = 1
  · rw [if_pos hcoarse, if_pos hcoarse]
    simp only
    generalize mem ((pde &&& 0xfffffc00) + 4 * PTX va) = pte
    by_cases hzero : pte &&& 3 = 0
    · rw [if_pos hzero, if_pos hzero]
      rfl
    · rw [if_neg hzero, if_neg hzero]
      split <;> rfl
  · rw [if_neg hcoarse, if_neg hcoarse]
    by_cases hsection : pde &&& 3 = 2
    · rw [if_pos hsection, if_pos hsection]
      split <;> rfl
    · rw [if_neg hsection, if_neg hsection]
      rfl

/-- No domain is checked. -/
theorem grants_DACR (r : Rights) (m : Mode) (a : Access) : r.grants DACR m a = true := by
  have hmanager : ∀ d : BitVec 4, DACR.extractLsb' (2 * d.toNat) 2 = 3 := by decide
  rw [Rights.grants, hmanager r.domain]
  rfl

/-- Every access to an address that is mapped goes through. -/
theorem allows_DACR {mem : Mem} {ttb va pa : Word} (h : translate mem ttb va = some pa) (m : Mode)
    (a : Access) : allows DACR mem ttb va m a = true := by
  have hsome := rights_isSome mem ttb va
  rw [h] at hsome
  obtain ⟨r, hr⟩ := Option.isSome_iff_exists.mp hsome
  rw [allows, hr]
  exact grants_DACR r m a

/-! ## The pages of a call -/

/-- The pages whose entries the loop of `mappages` writes.  A loop whose last page is `a` makes
the round for `a` alone. -/
def written (mmu : Mmu) (pgdir last : Word) : Nat → Word → Word → Kmem → List Word
  | 0, _, _, _ => []
  | n + 1, a, pa, k =>
      match mapLoop mmu pgdir a 1 a pa k with
      | .ok (true, k) =>
          a :: if last ≤ a then [] else written mmu pgdir last n (a + PGSIZE) (pa + PGSIZE) k
      | _ => []

/-- The pages whose entries a call of `mappages` writes. -/
def installs (mmu : Mmu) (pgdir va size pa : Word) (k : Kmem) : List Word :=
  written mmu pgdir (PGROUNDDOWN (va + size - 1)) (2 ^ 20 + 1) (PGROUNDDOWN va) pa k

/-- The pages that a call installs are closed to user mode. -/
def ClosedToUser (mmu : Mmu) (dir va size pa perm : Word) (k : Kmem) : Prop :=
  ∀ x ∈ installs mmu (p2v dir) va size pa k,
    ∀ b k₁, mappages mmu (p2v dir) va size pa perm k = .ok (b, k₁) →
      ∀ y, PGROUNDDOWN y = x → ∀ a, allows DACR k₁.mem dir y .user a = false

/-- A call whose `perm` has the other value of `PTE_U` or of `PTE_W` gives the pages it installs
other rights. -/
def PermMatters (mmu : Mmu) (dir va size pa perm : Word) (k : Kmem) : Prop :=
  ∀ bit, bit = PTE_U ∨ bit = PTE_W → ∀ x ∈ installs mmu (p2v dir) va size pa k,
    ∀ b k₁ b' k₂, mappages mmu (p2v dir) va size pa perm k = .ok (b, k₁) →
      mappages mmu (p2v dir) va size pa (perm ^^^ bit) k = .ok (b', k₂) →
      ∃ m a, allows DACR k₁.mem dir x m a ≠ allows DACR k₂.mem dir x m a

variable {R : Region} {dir : Word} {l : List Word} {k : Kmem} {mmu : Mmu} {va pa : Word}

/-- A call installs its first page if there is a page table or a free page for one. -/
theorem installs_first (h : Directory R dir l k) (hmmu : LowMapped R.top mmu) (hlow : 0 < R.low)
    (hpa : Aligned pa) (va size : Word) :
    PGROUNDDOWN va ∈ installs mmu (p2v dir) va size pa k ↔
      ¬ (tableAt k.mem dir (pdx va) = none ∧ l = []) := by
  rw [← Directory.pdx_PGROUNDDOWN va, installs, written]
  rcases h.mapLoop_round hmmu (a := PGROUNDDOWN va) hpa rfl with
    ⟨l₁, k₁, -, hfull, hrun⟩ | ⟨l₁, k₁, -, hroom, hrun⟩
  · rw [hrun]
    exact iff_of_false List.not_mem_nil (not_not_intro (hfull hlow))
  · rw [hrun, if_pos (BitVec.le_refl _)]
    exact iff_of_true (List.mem_cons_self ..) (not_and_or.mpr hroom)

/-- A call that installs no page at all. -/
theorem installs_nil (h : Directory R dir [] k) (hmmu : LowMapped R.top mmu) (hpa : Aligned pa)
    (hnone : tableAt k.mem dir (pdx va) = none) (size : Word) :
    installs mmu (p2v dir) va size pa k = [] := by
  rw [← Directory.pdx_PGROUNDDOWN va] at hnone
  rw [installs, written]
  rcases h.mapLoop_round hmmu (a := PGROUNDDOWN va) hpa rfl with
    ⟨l₁, k₁, -, -, hrun⟩ | ⟨l₁, k₁, -, hroom, -⟩
  · rw [hrun]
  · exact absurd ⟨hnone, rfl⟩ (not_and_or.mpr hroom)

/-- A call that installs its first page leaves it open. -/
theorem first_open (h : Directory R dir l k) (hmmu : LowMapped R.top mmu) (hlow : 0 < R.low)
    (hpa : Aligned pa) (va size perm : Word)
    (hroom : ¬ (tableAt k.mem dir (pdx va) = none ∧ l = [])) :
    ∃ b k₁, mappages mmu (p2v dir) va size pa perm k = .ok (b, k₁) ∧
      ∀ m a, allows DACR k₁.mem dir (PGROUNDDOWN va) m a = true := by
  obtain ⟨b, m, l₁, k₁, hrun, hmaps, -, -, hm⟩ :=
    h.mappages_maps hmmu va size perm hpa rfl rfl
  have hpos : m ≠ 0 := fun hzero => hroom ((hm hlow).mp hzero)
  have hpage : (PGROUNDDOWN va).toNat / 4096 = va.toNat / 4096 := by
    rw [toNat_PGROUNDDOWN]
    omega
  exact ⟨b, k₁, hrun, allows_DACR (hmaps.mapped _ (by omega) (by omega))⟩

/-- The pages that a call without `PTE_U` installs are closed to user mode, and `perm` matters,
only if the call installs none: there is no page table for its first page, and no free page for
one. -/
theorem closedToUser_iff (h : Directory R dir l k) (hmmu : LowMapped R.top mmu) (hlow : 0 < R.low)
    (hpa : Aligned pa) (va size perm : Word) :
    (perm &&& PTE_U = 0 → (ClosedToUser mmu dir va size pa perm k ↔
      tableAt k.mem dir (pdx va) = none ∧ l = [])) ∧
    (PermMatters mmu dir va size pa perm k ↔ tableAt k.mem dir (pdx va) = none ∧ l = []) := by
  have hfirst := installs_first h hmmu hlow hpa va size
  refine ⟨fun _ => ⟨fun hclosed => ?_, ?_⟩, fun hmatters => ?_, ?_⟩
  · by_contra hroom
    obtain ⟨b, k₁, hrun, hopen⟩ := first_open h hmmu hlow hpa va size perm hroom
    have hdown : PGROUNDDOWN (PGROUNDDOWN va) = PGROUNDDOWN va := by
      apply BitVec.eq_of_toNat_eq
      rw [toNat_PGROUNDDOWN, toNat_PGROUNDDOWN]
      omega
    have hshut := hclosed _ (hfirst.mpr hroom) b k₁ hrun _ hdown .write
    rw [hopen] at hshut
    cases hshut
  · rintro ⟨hnone, rfl⟩ x hx
    rw [installs_nil h hmmu hpa hnone size] at hx
    cases hx
  · by_contra hroom
    obtain ⟨b, k₁, hrun, -⟩ := first_open h hmmu hlow hpa va size perm hroom
    -- the second call does the same as the first
    obtain ⟨md, a, hne⟩ := hmatters PTE_W (.inr rfl) _ (hfirst.mpr hroom) b k₁ b k₁ hrun hrun
    exact hne rfl
  · rintro ⟨hnone, rfl⟩ bit hbit x hx
    rw [installs_nil h hmmu hpa hnone size] at hx
    cases hx

/-- Without a page table and a free page nothing is installed. -/
theorem closedToUser_iff_full :
    ClosedToUser (entryMmu .qemu) 0x4000 0 1 0 PTE_W { mem := fun _ => 0, freelist := 0 } ∧
      PermMatters (entryMmu .qemu) 0x4000 0 1 0 PTE_W { mem := fun _ => 0, freelist := 0 } := by
  have hnone : ∀ i, tableAt (fun _ => 0) 0x4000 i = none := fun i => by
    rw [tableAt, tableOf, if_neg (by decide)]
  have hdir : Directory entryRegion 0x4000 [] { mem := fun _ => 0, freelist := 0 } := by
    refine ⟨⟨by decide, by decide, ?_, ?_, rfl, List.nodup_nil, ?_, ?_⟩, fun _ _ => .inl ?_⟩
    · intro i q _ hq
      cases (hnone i).symm.trans hq
    · intro i j q _ _ hq
      cases (hnone i).symm.trans hq
    · intro p hp
      cases hp
    · intro i q _ hq
      cases (hnone i).symm.trans hq
    · show (0 : Word) &&& 3 = 0
      decide
  obtain ⟨hclosed, hmatters⟩ := closedToUser_iff hdir (entryMmu_lowMapped .qemu) (by decide)
    (show Aligned 0 by decide) 0 1 PTE_W
  exact ⟨(hclosed (by decide)).mpr ⟨hnone _, rfl⟩, hmatters.mpr ⟨hnone _, rfl⟩⟩

/-- The first page of an empty directory, mapped for the kernel, can be written in user mode. -/
theorem kernelPage_open :
    PTE_W &&& PTE_U = 0 ∧ ¬ ClosedToUser (entryMmu .qemu) 0x4000 0 1 0 PTE_W (loneEntry 0) ∧
      ∃ k₁, mappages (entryMmu .qemu) (p2v 0x4000) 0 1 0 PTE_W (loneEntry 0) = .ok (true, k₁) ∧
        allows DACR k₁.mem 0x4000 0 .user .write = true := by
  have hroom : ¬ (tableAt (loneEntry 0).mem 0x4000 (pdx 0) = none ∧
      [(0xc0010000 : Word)] = []) := fun hfull => List.cons_ne_nil _ _ hfull.2
  have hmmu := entryMmu_lowMapped .qemu
  obtain ⟨b, k₁, hrun, hopen⟩ := first_open loneEntry_directory hmmu (by decide)
    (show Aligned 0 by decide) 0 1 PTE_W hroom
  have htrue := loneEntry_mappages (d := 0) (by decide) (by decide)
  cases Except.ok.inj (hrun.symm.trans htrue)
  refine ⟨by decide, fun hclosed => ?_, _, htrue, hopen .user .write⟩
  have hfirst := (installs_first loneEntry_directory hmmu (by decide) (show Aligned 0 by decide)
    0 1).mpr hroom
  have hshut := hclosed _ hfirst _ _ hrun 0 rfl .write
  exact absurd ((hopen .user .write).symm.trans hshut) (by decide)

end Xv6Arm.Vm
