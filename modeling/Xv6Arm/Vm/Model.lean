import Xv6Arm.Mem.Kalloc

/-!
# Page tables

The model of the kernel part of `vm.c`: `walkpgdir`, `mappages` and `setupkvm`,
with the constants of `mmu.h`, the table `kmap`, and `EntryPageTable` of
`main.c`.

`translate` is the walk that the MMU makes, in the short-descriptor format of
ARMv6.  `kalloc` and `memset` work on kernel addresses, which all page tables of
the kernel map alike.  `walkpgdir` however gives `mappages` a pointer that is a
kernel address when it has just made the page table, and the raw physical address
when the page table was there before.  So the other reads and writes go through
the translation `mmu` that is in force, and an address it does not map is a data
abort.
-/

namespace Xv6Arm.Vm

/-! ## The walk -/

/-- `PDX`. -/
def PDX (va : Word) : Word := (va >>> 20) &&& 0xFFF

/-- `PTX`. -/
def PTX (va : Word) : Word := (va >>> 12) &&& 0xFF

/-- The translation of `va` by a first-level descriptor: a coarse page table, a
section, or a fault. -/
def translateBy (mem : Mem) (pde va : Word) : Option Word :=
  if pde &&& 3 = 1 then
    let pte := mem ((pde &&& 0xfffffc00) + 4 * PTX va)
    if pte &&& 3 = 0 then none
    else if pte &&& 3 = 1 then some ((pte &&& 0xffff0000) ||| (va &&& 0xffff))
    else some ((pte &&& 0xfffff000) ||| (va &&& 0xfff))
  else if pde &&& 3 = 2 then
    if pde &&& 0x40000 = 0 then some ((pde &&& 0xfff00000) ||| (va &&& 0xfffff))
    else some ((pde &&& 0xff000000) ||| (va &&& 0xffffff))
  else none

/-- The translation of `va` through the directory at the physical address
`ttb`. -/
def translate (mem : Mem) (ttb va : Word) : Option Word :=
  translateBy mem (mem ((ttb &&& 0xffffc000) + 4 * PDX va)) va

/-! ## The flags of descriptors -/

def DOMAIN : Word := 0xF
def NS : Word := 0
def XN : Word := 1
def B : Word := 0
def C : Word := 0
def TEX : Word := 1
def S : Word := 0
def AP : Word := 2
def APX : Word := 0
def nG : Word := 0
def P : Word := 0

/-- The directory entry of a page table at a physical address. -/
def coarsePde (pgtab : Word) : Word := pgtab ||| DOMAIN <<< 5 ||| NS <<< 3 ||| 1

/-- The entry that maps a page to a physical address. -/
def pagePte (pa : Word) : Word :=
  pa ||| nG <<< 11 ||| S <<< 10 ||| APX <<< 9 ||| TEX <<< 6 ||| AP <<< 4 ||| C <<< 3 ||| B <<< 2
    ||| 1 <<< 1 ||| XN <<< 0

/-- The directory entry of the section with a number. -/
def sectionPde (n : Word) : Word :=
  n <<< 20 ||| NS <<< 19 ||| nG <<< 17 ||| S <<< 16 ||| APX <<< 15 ||| TEX <<< 12 ||| AP <<< 10
    ||| P <<< 9 ||| DOMAIN <<< 5 ||| XN <<< 4 ||| C <<< 3 ||| B <<< 2 ||| 2

/-! ## The targets -/

/-- The two targets of the Makefile. -/
inductive Target
  | qemu
  | real
deriving DecidableEq

/-- `GPIO_BASE_P`. -/
def Target.GPIO_BASE_P : Target → Word
  | .qemu => 0x101e4000
  | .real => 0x20200000

/-- `UART0_BASE_P`. -/
def Target.UART0_BASE_P : Target → Word
  | .qemu => 0x101f1000
  | .real => 0x20201000

/-- `GPIO_BASE_V`. -/
def Target.GPIO_BASE_V : Target → Word
  | .qemu => 0xf2200000
  | .real => 0xf2200000

/-- `UART0_BASE_V`. -/
def Target.UART0_BASE_V : Target → Word
  | .qemu => 0xf22f1000
  | .real => 0xf2201000

/-- `VIC_BASE`. -/
def VIC_BASE : Word := 0xfffef000

/-- `TIMER_BASE`. -/
def TIMER_BASE : Word := 0x7e00b000

/-- `VEC_TBL`. -/
def VEC_TBL : Word := 0xffff0000

/-- `EntryPageTable`.  An element that is initialised twice has the last of its
initialisers, and one that is not initialised is 0. -/
def EntryPageTable (t : Target) (i : Word) : Word :=
  if i = 0xc03 then sectionPde 3
  else if i = 0xc02 then sectionPde 2
  else if i = 0xc01 then sectionPde 1
  else if i = 0xc00 then sectionPde 0
  else if i = PDX t.UART0_BASE_V then sectionPde (t.UART0_BASE_P >>> 20)
  else if i = PDX t.GPIO_BASE_V then sectionPde (t.GPIO_BASE_P >>> 20)
  else if i = PDX t.GPIO_BASE_P then sectionPde (t.GPIO_BASE_P >>> 20)
  else if i = 3 then sectionPde 3
  else if i = 2 then sectionPde 2
  else if i = 1 then sectionPde 1
  else if i = 0 then sectionPde 0
  else 0

/-- The translation under `EntryPageTable`, which has sections only. -/
def entryMmu (t : Target) (va : Word) : Option Word :=
  translateBy (fun _ => 0) (EntryPageTable t (PDX va)) va

/-! ## Building page tables -/

/-- The translation in force. -/
abbrev Mmu := Word → Option Word

/-- Reads a word. -/
def load (mmu : Mmu) (mem : Mem) (va : Word) : Except Fault Word :=
  match mmu va with
  | some pa => .ok (mem pa)
  | none => .error (.dataAbort va)

/-- Writes a word. -/
def store (mmu : Mmu) (mem : Mem) (va w : Word) : Except Fault Mem :=
  match mmu va with
  | some pa => .ok (Function.update mem pa w)
  | none => .error (.dataAbort va)

/-- `walkpgdir`: the address of the page table entry, or 0. -/
def walkpgdir (mmu : Mmu) (pgdir va : Word) (alloc : Bool) (k : Kmem) :
    Except Fault (Word × Kmem) := do
  let pde := pgdir + 4 * PDX va
  let d ← load mmu k.mem pde
  if d &&& 1 = 1 then
    return ((d &&& 0xfffff800) + 4 * PTX va, k)
  else if !alloc then
    return (0, k)
  else if (kalloc k).1 = 0 then
    return (0, (kalloc k).2)
  else
    let pgtab := (kalloc k).1
    let mem ← store mmu (memset (kalloc k).2.mem pgtab 0 4096) pde (coarsePde (v2p pgtab))
    return (pgtab + 4 * PTX va, { mem := mem, freelist := (kalloc k).2.freelist })

/-- The loop of `mappages`, with a bound on its rounds.  The result says whether
`mappages` returns 0. -/
def mapLoop (mmu : Mmu) (pgdir last : Word) :
    Nat → Word → Word → Kmem → Except Fault (Bool × Kmem)
  | 0, _, _, _ => .error .diverges
  | n + 1, a, pa, k => do
      let (pte, k) ← walkpgdir mmu pgdir a true k
      if pte = 0 then
        return (false, k)
      else
        -- `*pte & 0b10` only decides whether a message is printed
        let _ ← load mmu k.mem pte
        let mem ← store mmu k.mem pte (pagePte pa)
        if last ≤ a then
          return (true, { k with mem := mem })
        else
          mapLoop mmu pgdir last n (a + PGSIZE) (pa + PGSIZE) { k with mem := mem }

/-- `mappages`.  It does not use its argument `perm`. -/
def mappages (mmu : Mmu) (pgdir va size pa _perm : Word) (k : Kmem) :
    Except Fault (Bool × Kmem) :=
  mapLoop mmu pgdir (PGROUNDDOWN (va + size - 1)) (2 ^ 20 + 1) (PGROUNDDOWN va) pa k

/-- An entry of `kmap`. -/
structure KmapEntry where
  virt : Word
  phys_start : Word
  phys_end : Word
  perm : Word

/-- `PTE_W`. -/
def PTE_W : Word := 2

/-- `kmap` as the loop of `setupkvm` reads it, with the page `vec` that
`setupkvm` took for the vector table. -/
def kmap (t : Target) (data kend vec : Word) : List KmapEntry :=
  [ { virt := KERNBASE, phys_start := 0, phys_end := EXTMEM, perm := PTE_W },
    { virt := KERNLINK, phys_start := v2p KERNLINK, phys_end := v2p data, perm := PTE_W },
    { virt := data, phys_start := v2p data, phys_end := v2p kend, perm := PTE_W },
    { virt := kend, phys_start := v2p kend, phys_end := PHYSTOP, perm := PTE_W },
    { virt := t.UART0_BASE_V, phys_start := t.UART0_BASE_P, phys_end := t.UART0_BASE_P + 0x1000,
      perm := PTE_W },
    { virt := VEC_TBL, phys_start := v2p vec, phys_end := t.UART0_BASE_P + 0x1000, perm := PTE_W },
    { virt := VIC_BASE, phys_start := VIC_BASE, phys_end := VIC_BASE + 0x1000, perm := PTE_W },
    { virt := TIMER_BASE, phys_start := TIMER_BASE, phys_end := TIMER_BASE + 0x1000,
      perm := PTE_W } ]

/-- The loop of `setupkvm` over the entries of `kmap`. -/
def mapEntries (mmu : Mmu) (pgdir : Word) : List KmapEntry → Kmem → Except Fault (Bool × Kmem)
  | [], k => .ok (true, k)
  | e :: es, k => do
      let (ok, k) ← mappages mmu pgdir e.virt (e.phys_end - e.phys_start) e.phys_start e.perm k
      if ok then mapEntries mmu pgdir es k else return (false, k)

/-- Where the linker put the symbols that `vm.c` uses. -/
structure Symbols where
  data : Word
  kend : Word
  kernel_pgdir : Word

/-- `setupkvm`: the directory, or 0. -/
def setupkvm (mmu : Mmu) (t : Target) (sym : Symbols) (k : Kmem) : Except Fault (Word × Kmem) := do
  let vec := (kalloc k).1
  let mem := memset (kalloc k).2.mem sym.kernel_pgdir 0 (4096 * 4)
  let (ok, k) ← mapEntries mmu sym.kernel_pgdir (kmap t sym.data sym.kend vec)
    { mem := mem, freelist := (kalloc k).2.freelist }
  return (if ok then sym.kernel_pgdir else 0, k)

end Xv6Arm.Vm
