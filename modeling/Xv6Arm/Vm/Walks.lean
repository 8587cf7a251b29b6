import Xv6Arm.Vm.Directory

/-!
# The pointers that walkpgdir gives

Calls of `walkpgdir` on one directory, one after the other.  The pointer to an entry is
a kernel address if the call has made the page table, and the physical address of the
entry if the page table was there before.
-/

namespace Xv6Arm.Vm

open Runs

/-- Memory, and the calls so far that gave a pointer, last first: the address and the pointer. -/
structure Walks where
  kmem : Kmem
  calls : List (Word × Word)

namespace Walks

/-- A call of `walkpgdir(pgdir, va, alloc)`. -/
def step (mmu : Mmu) (pgdir : Word) (c : Word × Bool) (s : Walks) : Option Walks :=
  match walkpgdir mmu pgdir c.1 c.2 s.kmem with
  | .ok (pte, k) => some ⟨k, if pte = 0 then s.calls else (c.1, pte) :: s.calls⟩
  | .error _ => none

/-- The calls for one entry gave one pointer, a kernel address of physical memory. -/
structure OneAddress (s : Walks) : Prop where
  same : ∀ x ∈ s.calls, ∀ y ∈ s.calls, PDX x.1 = PDX y.1 → PTX x.1 = PTX y.1 → x.2 = y.2
  kern : ∀ x ∈ s.calls, KERNBASE ≤ x.2 ∧ x.2 < KERNBASE + PHYSTOP

/-- A call for an address that has no page table. -/
def Absent (dir : Word) (s : Walks) (c : Word × Bool) : Prop :=
  tableAt s.kmem.mem dir (pdx c.1) = none

/-- The directory is sound, and the entries that calls gave pointers to have page tables. -/
structure Inv (R : Region) (dir : Word) (s : Walks) : Prop where
  directory : ∃ l, Directory R dir l s.kmem
  present : ∀ x ∈ s.calls, tableAt s.kmem.mem dir (pdx x.1) ≠ none
  one : OneAddress s

variable {R : Region} {dir : Word} {mmu : Mmu} {l : List Word} {k : Kmem} {s t : Walks}
  {c : Word × Bool}

theorem pdx_of_PDX {x y : Word} (h : PDX x = PDX y) : pdx x = pdx y := by
  rw [← toNat_PDX, ← toNat_PDX, h]

/-- An element of a page, at its kernel address. -/
theorem kern_slot {p : Word} (hp : PhysPage R (v2p p)) {j : Nat} (hj : j < 256) :
    KERNBASE ≤ slot p j ∧ slot p j < KERNBASE + PHYSTOP := by
  have hval := toNat_slot hp hj
  have htop := hp.le_top
  have hend := R.top_le
  have hslot : slot p j = p2v (slot (v2p p) j) := by rw [← slot_p2v, p2v_v2p]
  rw [hslot, p2v, KERNBASE, PHYSTOP]
  constructor <;> bv_omega

/-- A call that makes a page table is the first one for its entry. -/
theorem Inv.step (hmmu : KernMapped R.top mmu) (h : Inv R dir s) (hc : Absent dir s c)
    (hst : Walks.step mmu (p2v dir) c s = some t) : Inv R dir t := by
  obtain ⟨l, hdir⟩ := h.directory
  obtain ⟨va, alloc⟩ := c
  rw [Walks.step] at hst
  by_cases hno : alloc = false ∨ l = []
  · simp only [hdir.walk_none hmmu hc hno, if_true] at hst
    cases hst
    exact ⟨⟨l, hdir⟩, h.present, h.one⟩
  · rw [not_or] at hno
    obtain rfl : alloc = true := by simpa using hno.1
    obtain ⟨p, l, rfl⟩ := List.exists_cons_of_ne_nil hno.2
    have hpage := (hdir.free_page p (List.mem_cons_self ..)).toPhysPage
    have hne := hpage.slot_kern_ne_zero (ptx_lt va)
    rw [p2v_v2p] at hne
    simp only [hdir.walk_miss hmmu hc, if_neg hne] at hst
    cases hst
    have htab := fun x => hdir.newTable_tableAt (pdx_lt va) (pdx_lt x)
    -- a call before this one has left a page table, so it was for another directory entry
    have hother : ∀ x ∈ s.calls, PDX va ≠ PDX x.1 := by
      intro x hx he
      apply h.present x hx
      rw [← pdx_of_PDX he]
      exact hc
    refine ⟨⟨l, hdir.newTable_directory (pdx_lt va)⟩, ?_, ?_, ?_⟩
    · intro x hx
      rw [htab]
      cases List.mem_cons.mp hx with
      | inl hnew =>
          rw [hnew, if_pos rfl]
          exact Option.some_ne_none _
      | inr hold =>
          by_cases he : pdx x.1 = pdx va
          · rw [if_pos he]
            exact Option.some_ne_none _
          · rw [if_neg he]
            exact h.present x hold
    · intro x hx y hy hd ht
      rcases List.mem_cons.mp hx with rfl | hx'
      · rcases List.mem_cons.mp hy with rfl | hy'
        · rfl
        · exact absurd hd (hother y hy')
      · rcases List.mem_cons.mp hy with rfl | hy'
        · exact absurd hd.symm (hother x hx')
        · exact h.one.same x hx' y hy' hd ht
    · intro x hx
      rcases List.mem_cons.mp hx with rfl | hx'
      · exact kern_slot hpage (ptx_lt va)
      · exact h.one.kern x hx'

/-- A call that finds a page table gives a physical address. -/
theorem not_oneAddress (hmmu : KernMapped R.top mmu) (hlow : 0 < R.low) (h : Inv R dir s)
    (hc : ¬ Absent dir s c) (hst : Walks.step mmu (p2v dir) c s = some t) : ¬ OneAddress t := by
  obtain ⟨l, hdir⟩ := h.directory
  obtain ⟨q, hq⟩ := Option.ne_none_iff_exists'.mp hc
  have hpage := (hdir.table_page _ q (pdx_lt c.1) hq).toPhysPage
  have htop := hpage.le_top
  have hend := R.top_le
  have hval := toNat_slot hpage (ptx_lt c.1)
  have hlt := ptx_lt c.1
  rw [Walks.step] at hst
  simp only [hdir.walk_hit hmmu hq, if_neg (hpage.slot_ne_zero hlow (ptx_lt c.1))] at hst
  cases hst
  intro hone
  have hkern := (hone.kern _ (List.mem_cons_self ..)).1
  rw [KERNBASE] at hkern
  bv_omega

/-- Along a sequence of calls of `walkpgdir`, each entry has one address, and it is a kernel
address, exactly if no call finds a page table. -/
theorem oneAddress_iff (hmmu : KernMapped R.top mmu) (hlow : 0 < R.low) (h : Directory R dir l k)
    {tr : List (Walks × (Word × Bool))} {u : Walks}
    (hr : Run (step mmu (p2v dir)) ⟨k, []⟩ tr u) :
    Along OneAddress tr u ↔ EveryStep (Absent dir) tr := by
  refine hr.forall_iff (I := Inv R dir) (fun _ hs => hs.one)
    (fun _ _ _ hs hc hst => hs.step hmmu hc hst)
    (fun _ _ _ hs hc hst => not_oneAddress hmmu hlow hs hc hst) ⟨⟨l, h⟩, ?_, ?_, ?_⟩
  · intro x hx
    cases hx
  · intro x hx
    cases hx
  · intro x hx
    cases hx

theorem step_first : step (entryMmu .qemu) (p2v 0x4000) (0, true) ⟨loneEntry 0, []⟩ =
    some ⟨newTable (loneEntry 0) 0x4000 0xc0010000 0, [(0, 0xc0010000)]⟩ := by
  have hnone : tableAt (loneEntry 0).mem 0x4000 (pdx 0) = none := by decide
  rw [step]
  simp only [loneEntry_directory.walk_miss (entryMmu_lowMapped .qemu).toKernMapped hnone]
  rfl

/-- One call. -/
theorem oneAddress_iff_first : ∃ tr u,
    Run (step (entryMmu .qemu) (p2v 0x4000)) ⟨loneEntry 0, []⟩ tr u ∧ Along OneAddress tr u := by
  have hr := Run.cons step_first (.nil _)
  refine ⟨_, _, hr, (oneAddress_iff (entryMmu_lowMapped .qemu).toKernMapped (by decide) loneEntry_directory
    hr).mpr ?_⟩
  intro x hx
  obtain rfl := List.mem_singleton.mp hx
  show tableAt (loneEntry 0).mem 0x4000 (pdx 0) = none
  decide

/-- The same call twice. -/
theorem twice_not_oneAddress : ∃ tr u,
    Run (step (entryMmu .qemu) (p2v 0x4000)) ⟨loneEntry 0, []⟩ tr u ∧
      tr.map Prod.snd = [(0, true), (0, true)] ∧ u.calls = [(0, 0x10000), (0, 0xc0010000)] ∧
      ¬ OneAddress u := by
  have hnew : tableAt (newTable (loneEntry 0) 0x4000 0xc0010000 0).mem 0x4000 (pdx 0) =
      some 0x10000 := by
    rw [loneEntry_directory.newTable_tableAt (by decide) (by decide), if_pos (by decide)]
    rfl
  have hdir := loneEntry_directory.newTable_directory (i := 0) (by decide)
  have hsecond : step (entryMmu .qemu) (p2v 0x4000) (0, true)
      ⟨newTable (loneEntry 0) 0x4000 0xc0010000 0, [(0, 0xc0010000)]⟩ =
      some ⟨newTable (loneEntry 0) 0x4000 0xc0010000 0, [(0, 0x10000), (0, 0xc0010000)]⟩ := by
    rw [step]
    simp only [hdir.walk_hit (entryMmu_lowMapped .qemu).toKernMapped hnew]
    rfl
  refine ⟨_, _, .cons step_first (.cons hsecond (.nil _)), rfl, rfl, fun hone => ?_⟩
  exact absurd (hone.same (0, 0x10000) (by simp) (0, 0xc0010000) (by simp) rfl rfl) (by decide)

end Walks

end Xv6Arm.Vm
