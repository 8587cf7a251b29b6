import Xv6Arm.Lib.Bytes
import Xv6Arm.Lib.Circle
import Xv6Arm.Lib.Segments

/-!
# The user allocator

The model of `umalloc.c`.  Memory is bytes, and a `Header` is the pointer and the
size in the 8 bytes at its address, wherever that address is.  Pointers and sizes
are 32-bit numbers: sums of pointers wrap, and a number is cut to its field when it
is stored.

`sbrk` is the kernel.  It may be willing to give memory at some addresses, the
*offers*.  It gives the next one of them if the memory there is fresh, and returns
-1 otherwise.  A number of bytes that is not a positive `int` is answered as well:
then the address is the break, and nothing is given.
-/

namespace Xv6Arm.Umalloc

open Bytes Circles Segments

/-- Memory, the variable `freep`, the memory that `sbrk` has given, and its offers. -/
structure Heap where
  mem : Buf (2 ^ 32)
  freep : Nat
  given : List (Seg Nat)
  offers : List Nat

namespace Heap

/-- `p->s.ptr`. -/
def ptr (h : Heap) (p : Nat) : Nat := getLe h.mem p 4

/-- `p->s.size`. -/
def size (h : Heap) (p : Nat) : Nat := getLe h.mem (p + 4) 4

/-- `p->s.ptr = v`. -/
def setPtr (h : Heap) (p v : Nat) : Heap := { h with mem := putLe h.mem p 4 v }

/-- `p->s.size = v`. -/
def setSize (h : Heap) (p v : Nat) : Heap := { h with mem := putLe h.mem (p + 4) 4 v }

end Heap

/-- `p + n` for a `Header *`. -/
def unitsPast (p n : Nat) : Nat := (p + 8 * n) % 2 ^ 32

/-! ## free -/

/-- The loop of `free`.  It leaves memory alone, so one that ends does so before it has been at
every address. -/
def findPlace (h : Heap) (bp : Nat) : Option Nat :=
  walk h.ptr (fun p => (bp > p ∧ bp < h.ptr p) ∨ (p ≥ h.ptr p ∧ (bp > p ∨ bp < h.ptr p)))
    (2 ^ 32) h.freep

/-- The first test of `free`. -/
def joinUpper (h : Heap) (bp p : Nat) : Heap :=
  if unitsPast bp (h.size bp) = h.ptr p then
    let h := h.setSize bp (h.size bp + h.size (h.ptr p))
    h.setPtr bp (h.ptr (h.ptr p))
  else h.setPtr bp (h.ptr p)

/-- The second test of `free`. -/
def joinLower (h : Heap) (bp p : Nat) : Heap :=
  if unitsPast p (h.size p) = bp then
    let h := h.setSize p (h.size p + h.size bp)
    h.setPtr p (h.ptr bp)
  else h.setPtr p bp

/-- `free`.  There is no result if the loop does not end. -/
def free (h : Heap) (ap : Nat) : Option Heap := do
  let bp := (ap + (2 ^ 32 - 8)) % 2 ^ 32
  let p ← findPlace h bp
  return { joinLower (joinUpper h bp p) bp p with freep := p }

/-! ## malloc -/

/-- Memory that `sbrk` may give: above `base`, and off what it has given before.  `allocuvm` stops
below `KERNBASE`, so there is an address behind the memory. -/
def Fresh (base : Nat) (given : List (Seg Nat)) (r : Seg Nat) : Prop :=
  base + 8 ≤ r.lo ∧ r.hi < 2 ^ 32 ∧ ∀ s ∈ given, r.Off s

instance (base : Nat) (given : List (Seg Nat)) (r : Seg Nat) : Decidable (Fresh base given r) :=
  inferInstanceAs (Decidable (_ ∧ _ ∧ _))

/-- `sbrk`.  The number of bytes is an `int`. -/
def sbrk (base n : Nat) (h : Heap) : Nat × Heap :=
  match h.offers with
  | [] => (2 ^ 32 - 1, h)
  | a :: offers =>
      if n = 0 ∨ 2 ^ 31 ≤ n then (a, { h with offers })
      else if Fresh base h.given ⟨a, a + n⟩ then (a, { h with given := ⟨a, a + n⟩ :: h.given, offers })
      else (2 ^ 32 - 1, { h with offers })

/-- `morecore`. -/
def morecore (base nu : Nat) (h : Heap) : Option (Nat × Heap) :=
  let nu := if nu < 4096 then 4096 else nu
  let (p, h) := sbrk base (nu * 8 % 2 ^ 32) h
  if p = 2 ^ 32 - 1 then some (0, h)
  else do
    let h ← free (h.setSize p nu) (unitsPast p 1)
    return (h.freep, h)

/-- The exit of the loop of `malloc`, with a block `p` that is large enough. -/
def take (h : Heap) (prevp p nunits : Nat) : Nat × Heap :=
  if h.size p = nunits then
    (unitsPast p 1, { h.setPtr prevp (h.ptr p) with freep := prevp })
  else
    let h := h.setSize p (h.size p - nunits)
    let p := unitsPast p (h.size p)
    let h := h.setSize p nunits
    (unitsPast p 1, { h with freep := prevp })

/-- The loop of `malloc`, with a bound on its rounds. -/
def mallocLoop (base nunits : Nat) : Nat → Nat → Nat → Heap → Option (Nat × Heap)
  | 0, _, _, _ => none
  | n + 1, prevp, p, h =>
      if h.size p ≥ nunits then some (take h prevp p nunits)
      else if p = h.freep then do
        let (p, h) ← morecore base nunits h
        if p = 0 then return (0, h) else mallocLoop base nunits n p (h.ptr p) h
      else mallocLoop base nunits n p (h.ptr p) h

/-- The test of `freep` in `malloc`. -/
def start (base : Nat) (h : Heap) : Heap :=
  if h.freep = 0 then ({ h with freep := base }.setPtr base base).setSize base 0 else h

/-- `malloc`.  The bound is more than the list and what `morecore` makes of it have nodes. -/
def malloc (base nbytes : Nat) (h : Heap) : Option (Nat × Heap) :=
  let nunits := (nbytes + 8 - 1) % 2 ^ 32 / 8 + 1
  let h := start base h
  mallocLoop base nunits (2 ^ 34) h.freep (h.ptr h.freep) h

/-! ## Headers -/

section Headers

variable {h : Heap} {p q v : Nat}

/-- Headers that do not overlap. -/
def Clear (p q : Nat) : Prop := p + 8 ≤ q ∨ q + 8 ≤ p

theorem Clear.symm (hpq : Clear p q) : Clear q p := Or.symm hpq

theorem ptr_lt (h : Heap) (p : Nat) : h.ptr p < 2 ^ 32 := getLe_lt _ _ _

theorem ptr_setPtr (hp : p + 8 ≤ 2 ^ 32) (hv : v < 2 ^ 32) : (h.setPtr p v).ptr p = v :=
  getLe_putLe_of_lt _ (by omega) hv

theorem size_setSize (hp : p + 8 ≤ 2 ^ 32) (hv : v < 2 ^ 32) : (h.setSize p v).size p = v :=
  getLe_putLe_of_lt _ (by omega) hv

theorem size_setPtr_self (hp : p + 8 ≤ 2 ^ 32) : (h.setPtr p v).size p = h.size p :=
  getLe_putLe_of_disjoint _ (by omega) (by omega)

theorem ptr_setSize_self (hp : p + 8 ≤ 2 ^ 32) : (h.setSize p v).ptr p = h.ptr p :=
  getLe_putLe_of_disjoint _ (by omega) (by omega)

/-- The header at `q` is the same in two heaps. -/
def Same (h h' : Heap) (q : Nat) : Prop := h'.ptr q = h.ptr q ∧ h'.size q = h.size q

theorem Same.trans {h' h'' : Heap} (h₁ : Same h h' q) (h₂ : Same h' h'' q) : Same h h'' q :=
  ⟨h₂.1.trans h₁.1, h₂.2.trans h₁.2⟩

theorem same_setPtr (hq : q + 8 ≤ 2 ^ 32) (hpq : Clear p q) : Same h (h.setPtr p v) q :=
  ⟨getLe_putLe_of_disjoint _ (by omega) (by unfold Clear at hpq; omega),
    getLe_putLe_of_disjoint _ (by omega) (by unfold Clear at hpq; omega)⟩

theorem same_setSize (hq : q + 8 ≤ 2 ^ 32) (hpq : Clear p q) : Same h (h.setSize p v) q :=
  ⟨getLe_putLe_of_disjoint _ (by omega) (by unfold Clear at hpq; omega),
    getLe_putLe_of_disjoint _ (by omega) (by unfold Clear at hpq; omega)⟩

end Headers

end Xv6Arm.Umalloc
