import Xv6Arm.User.HeapRuns

/-!
# Requests of any size

`malloc` takes a `uint`.  The sum that rounds it up to units wraps, so does the
product that `morecore` passes to `sbrk`, and `sbrk` reads that product as an
`int`.  Here a program asks for any number of bytes.

A sum that wraps gives a block without a byte behind its header.  A product that is
not a positive `int` gives a block at the break with no memory in it, and the memory
that `sbrk` gives next is given a second time.  Where neither happens a block has the
bytes that were asked for (`malloc_suffices_iff`), and where the second one does not
happen both functions end (`malloc_free_end`).
-/

namespace Xv6Arm.Umalloc

open Bytes Circles Segments Runs

/-- One step of a program that asks for any number of bytes.  A block is as large as its header
says. -/
def request (base : Nat) : Label → State → Option State
  | .malloc nbytes offers, s =>
      if nbytes < 2 ^ 32 then do
        let (p, heap) ← malloc base nbytes { s.heap with offers }
        if p = 0 then return { s with heap }
        else
          return { heap, held := ⟨⟨p - 8, p - 8 + 8 * nunits nbytes⟩, nbytes⟩ :: s.held }
      else none
  | .free ap, s => step base (.free ap) s
  | .store a v, s => step base (.store a v) s

/-- A step that gets no memory from `sbrk` for a number that is not positive. -/
def Backs (base : Nat) (s : State) : Label → Prop
  | .malloc nbytes offers => Backed base nbytes { s.heap with offers }
  | .free _ => True
  | .store _ _ => True

/-- The block of the pointer `p` has `nbytes` bytes behind its header, all in memory that `sbrk` has
given. -/
def Enough (nbytes p : Nat) (h : Heap) : Prop :=
  nbytes ≤ 8 * (h.size (p - 8) - 1) ∧ ∀ x, p ≤ x → x < p + nbytes → x ∈ cover h.given

/-- What `malloc` returns is null or large enough. -/
def Suffices (base nbytes : Nat) (h : Heap) : Prop :=
  ∀ p h', malloc base nbytes h = some (p, h') → p ≠ 0 → Enough nbytes p h'

section Requests

variable {base n nbytes : Nat} {s t u : State} {held : List (Seg Nat)} {r : Nat × Heap}
  {tr : List (State × Label)}

/-! ## Steps -/

/-- The header of a new block. -/
theorem Made.size (h : Made base n held r) : r.2.size (r.1 - 8) = n := by
  obtain ⟨free, b, hp, hhi, hg⟩ := h
  have hsized : b.hi = b.lo + 8 * r.2.size b.lo := hg.sized b (by simp)
  rw [hp, Nat.add_sub_cancel]
  omega

theorem Made.enough (h : Made base n held r) (hn : 8 + nbytes ≤ 8 * n) : Enough nbytes r.1 r.2 := by
  refine ⟨?_, fun x hlo hhi => ?_⟩
  · rw [h.size]
    omega
  · obtain ⟨free, b, hp, hend, hg⟩ := h
    rw [← hg.tiles.cover]
    exact ⟨b, by simp, by omega, by omega⟩

/-- A step with memory behind it keeps the list. -/
theorem Listed.request (hpos : 0 < base) (hbase : base + 8 ≤ 2 ^ 32) (h : Listed base s) {l : Label}
    (hl : Backs base s l) (hstep : request base l s = some t) : Listed base t := by
  cases l with
  | malloc nbytes offers =>
    obtain ⟨⟨p, heap⟩, free, hmalloc, -, hanswer⟩ := h.malloc hpos hbase hl
    simp only [Umalloc.request, hmalloc, Option.bind_eq_bind, Option.bind_some] at hstep
    split at hstep
    · rcases hanswer.made_or with hmade | ⟨hp, hg⟩
      · rw [if_neg hmade.ne_zero] at hstep
        obtain rfl := Option.some.inj hstep
        exact hmade.listed
      · rw [if_pos hp] at hstep
        obtain rfl := Option.some.inj hstep
        exact .inr ⟨free, hg⟩
    · cases hstep
  | free ap =>
    have hstep : step base (.free ap) s = some t := hstep
    obtain ⟨b, hb, hap⟩ := allowed_of_step hstep
    obtain ⟨c, hc, hcap, hfind⟩ := find_held hb hap
    obtain ⟨h', hfree, hlisted⟩ := h.free hpos hbase hc
    rw [hcap] at hfree
    simp only [step, hfind, hfree] at hstep
    obtain rfl := Option.some.inj hstep
    exact hlisted
  | store a v =>
    have hstep : step base (.store a v) s = some t := hstep
    have ha : Owned s.held a := allowed_of_step hstep
    obtain rfl := Option.some.inj ((if_pos ha).symm.trans hstep)
    exact h.store hbase ha v.toNat

/-- Runs with memory behind every step. -/
theorem listed_of_run (hpos : 0 < base) (hbase : base + 8 ≤ 2 ^ 32) (hs : Init s)
    (h : Run (request base) s tr u) (hok : EveryStep (Backs base) tr) : Listed base u :=
  (h.invariant_of (fun _ _ _ hs hl hstep => hs.request hpos hbase hl hstep) (.inl hs) hok).2

/-! ## Whole runs -/

/-- The blocks from `malloc`.  After a run with memory behind every step, a call with memory behind
it returns.  It returns null or a block that is large enough if and only if the sum does not wrap or
there is nothing to return. -/
theorem malloc_suffices_iff (hpos : 0 < base) (hbase : base + 8 ≤ 2 ^ 32) (hs : Init s)
    (h : Run (request base) s tr u) (hok : EveryStep (Backs base) tr) (hn : nbytes < 2 ^ 32)
    {offers : List Nat} (hback : Backed base nbytes { u.heap with offers }) :
    (∃ r, malloc base nbytes { u.heap with offers } = some r) ∧
    (Suffices base nbytes { u.heap with offers } ↔
      nbytes + 7 < 2 ^ 32 ∨ (¬ HasRoom (start base { u.heap with offers }) (nunits nbytes) ∧
        Refused base (nunits nbytes) (start base { u.heap with offers }))) := by
  obtain ⟨⟨p, heap⟩, free, hmalloc, hg, hanswer⟩ :=
    (listed_of_run hpos hbase hs h hok).malloc hpos hbase hback
  have hroom := hg.hasRoom_iff (show 0 < nunits nbytes from Nat.succ_pos _)
  -- A block that was made is large enough exactly if the sum does not wrap.
  have hmade : Made base (nunits nbytes) (u.held.map Held.block) (p, heap) →
      (Suffices base nbytes { u.heap with offers } ↔ nbytes + 7 < 2 ^ 32) := by
    intro hmade
    constructor
    · intro hsuff
      obtain ⟨hsize, -⟩ := hsuff p heap hmalloc hmade.ne_zero
      have hheader : heap.size (p - 8) = nunits nbytes := hmade.size
      rw [hheader] at hsize
      unfold nunits at hsize
      omega
    · intro hsum q h' hq hne
      obtain ⟨rfl, rfl⟩ := Prod.mk.inj (Option.some.inj (hmalloc.symm.trans hq))
      refine hmade.enough ?_
      rw [nunits_eq hsum]
      exact units_ge nbytes
  refine ⟨⟨(p, heap), hmalloc⟩, ?_⟩
  cases hanswer with
  | found hfit hmade' _ =>
    rw [hmade hmade', or_iff_left fun hno => hno.1 (hroom.mpr hfit)]
  | given hr hmade' _ _ =>
    rw [hmade hmade', or_iff_left fun hno => hr hno.2]
  | refused hfull hr hp _ _ =>
    refine iff_of_true (fun q h' hq hne => absurd ?_ hne) (.inr ⟨fun hhas => ?_, hr⟩)
    · obtain rfl := (Prod.mk.inj (Option.some.inj (hmalloc.symm.trans hq))).1
      exact hp
    · obtain ⟨c, hc, hsize⟩ := hroom.mp hhas
      exact absurd hsize (Nat.not_le.mpr (hfull c hc))

/-- `malloc` and `free` end.  After a run with memory behind every step, `free` of a block in use
returns, and so does `malloc` of a request.  It takes an answer of `sbrk` at most once, and it
returns null only if that answer is -1. -/
theorem malloc_free_end (hpos : 0 < base) (hbase : base + 8 ≤ 2 ^ 32) (hs : Init s)
    (h : Run (request base) s tr u) (hok : EveryStep (Backs base) tr) :
    (∀ b ∈ u.held, ∃ h', free u.heap (b.block.lo + 8) = some h') ∧
    ∀ nbytes offers, Request nbytes →
      ∃ p h', malloc base nbytes { u.heap with offers } = some (p, h') ∧
        (h'.offers = offers ∧ p ≠ 0 ∨ h'.offers = offers.tail ∧
          (p = 0 ↔ Refused base (units nbytes) (start base { u.heap with offers }))) := by
  have hlisted := listed_of_run hpos hbase hs h hok
  refine ⟨fun b hb => ?_, fun nbytes offers hreq => ?_⟩
  · obtain ⟨h', hfree, -⟩ := hlisted.free hpos hbase hb
    exact ⟨h', hfree⟩
  · obtain ⟨⟨p, heap⟩, free, hmalloc, hanswer⟩ := malloc_good hpos hbase hlisted hreq offers
    have hoffers : (start base { u.heap with offers }).offers = offers := by
      unfold start
      split <;> rfl
    refine ⟨p, heap, hmalloc, ?_⟩
    cases hanswer with
    | found _ hmade ho => exact .inl ⟨ho.trans hoffers, hmade.ne_zero⟩
    | given hr hmade ho _ =>
      exact .inr ⟨ho.trans (congrArg List.tail hoffers), iff_of_false hmade.ne_zero hr⟩
    | refused _ hr hp ho _ =>
      exact .inr ⟨ho.trans (congrArg List.tail hoffers), iff_of_true hp hr⟩

/-- Requests have memory behind them. -/
theorem everyStep_backs {ls : List Label} (htr : tr.map Prod.snd = ls)
    (hls : ∀ nbytes offers, Label.malloc nbytes offers ∈ ls → Request nbytes) :
    EveryStep (Backs base) tr := by
  rintro ⟨s, l⟩ hx
  have hl : l ∈ ls := htr ▸ List.mem_map_of_mem hx
  cases l with
  | malloc nbytes offers => exact (hls nbytes offers hl).backed _
  | free ap => trivial
  | store a v => trivial

end Requests

theorem twoRequests_backed :
    ∃ tr u, Run (request 4096) emptyHeap tr u ∧ tr.map Prod.snd = twoRequests ∧
      EveryStep (Backs 4096) tr := by
  obtain ⟨u, hu⟩ : ∃ u, exec (request 4096) twoRequests emptyHeap = some u :=
    Option.isSome_iff_exists.mp (by decide +kernel)
  obtain ⟨tr, hrun, hlabels⟩ := run_of_exec hu
  refine ⟨tr, u, hrun, hlabels, everyStep_backs hlabels fun nbytes offers hl => ?_⟩
  simp only [twoRequests, List.mem_cons, Label.malloc.injEq, reduceCtorEq, false_or, or_false,
    List.not_mem_nil] at hl
  rcases hl with ⟨rfl, -⟩ | ⟨rfl, -⟩ | ⟨rfl, -⟩ <;> decide

theorem malloc_suffices_iff_twoRequests :
    ∃ tr u, Run (request 4096) emptyHeap tr u ∧ tr.map Prod.snd = twoRequests ∧
      Suffices 4096 100000 { u.heap with offers := [40960] } := by
  obtain ⟨tr, u, hrun, hlabels, hok⟩ := twoRequests_backed
  have hreq : Request 100000 := by decide
  exact ⟨tr, u, hrun, hlabels, (malloc_suffices_iff (by decide) (by decide) ⟨rfl, rfl, rfl⟩ hrun hok
    (by decide) (hreq.backed _)).2.mpr (.inl (by decide))⟩

/-- With the break at 8192, `malloc(0xffffffff)` returns a block of one unit.  With the break at
48200, after a block of 5001 units that uses up all memory, `malloc(0xfffffff8)` asks for 0 bytes and
returns a block at the break. -/
theorem malloc_not_suffices :
    ¬ Suffices 4096 (2 ^ 32 - 1) { emptyHeap.heap with offers := [8192] } ∧
    ∃ tr u, Run (request 4096) emptyHeap tr u ∧ tr.map Prod.snd = [.malloc 40000 [8192]] ∧
      ¬ Suffices 4096 (2 ^ 32 - 8) { u.heap with offers := [48200] } := by
  constructor
  · intro hsuff
    have hval : (malloc 4096 (2 ^ 32 - 1) { emptyHeap.heap with offers := [8192] }).map
        (fun r => (r.1, r.2.size (r.1 - 8))) = some (40960, 1) := by decide +kernel
    obtain ⟨⟨p, h'⟩, hmalloc, heq⟩ := Option.map_eq_some_iff.mp hval
    obtain ⟨hp, hsize⟩ := Prod.mk.inj heq
    obtain ⟨hle, -⟩ := hsuff p h' hmalloc (by simp only at hp; omega)
    simp only at hsize
    omega
  · obtain ⟨u, hu⟩ : ∃ u, exec (request 4096) [.malloc 40000 [8192]] emptyHeap = some u :=
      Option.isSome_iff_exists.mp (by decide +kernel)
    obtain ⟨tr, hrun, hlabels⟩ := run_of_exec hu
    refine ⟨tr, u, hrun, hlabels, fun hsuff => ?_⟩
    have hval : (exec (request 4096) [.malloc 40000 [8192]] emptyHeap).bind (fun u =>
        (malloc 4096 (2 ^ 32 - 8) { u.heap with offers := [48200] }).map
          fun r => (r.1, r.2.given)) = some (48208, [⟨8192, 48200⟩]) := by decide +kernel
    rw [hu, Option.bind_some] at hval
    obtain ⟨⟨p, h'⟩, hmalloc, heq⟩ := Option.map_eq_some_iff.mp hval
    obtain ⟨hp, hgiven⟩ := Prod.mk.inj heq
    simp only at hp hgiven
    obtain ⟨-, hcover⟩ := hsuff p h' hmalloc (by omega)
    -- The first byte is behind all memory.
    obtain ⟨g, hg, -, hlt⟩ := hcover p (Nat.le_refl p) (by omega)
    rw [hgiven, List.mem_singleton] at hg
    rw [hg] at hlt
    simp only at hlt
    omega

theorem malloc_free_end_twoRequests :
    ∃ tr u, Run (request 4096) emptyHeap tr u ∧ tr.map Prod.snd = twoRequests ∧
      (∀ b ∈ u.held, ∃ h', free u.heap (b.block.lo + 8) = some h') ∧
      ∃ p h', malloc 4096 100000 { u.heap with offers := [40960] } = some (p, h') := by
  obtain ⟨tr, u, hrun, hlabels, hok⟩ := twoRequests_backed
  obtain ⟨hfree, hmalloc⟩ := malloc_free_end (by decide) (by decide) ⟨rfl, rfl, rfl⟩ hrun hok
  obtain ⟨p, h', hret, -⟩ := hmalloc 100000 [40960] (by decide)
  exact ⟨tr, u, hrun, hlabels, hfree, p, h', hret⟩

/-- The block at the break of `malloc(0xfffffff8)`, and then the memory that `sbrk` gives there. -/
def twiceGiven : List Label :=
  [.malloc 40000 [8192], .malloc (2 ^ 32 - 8) [48200], .malloc 10 [48200]]

/-- The rest of the memory is on the list at the address of the first block.  Its place is neither
before nor behind itself, and `free` goes round for ever. -/
theorem free_hangs :
    ∃ tr u, Run (request 4096) emptyHeap tr u ∧ tr.map Prod.snd = twiceGiven ∧
      ∃ b ∈ u.held, free u.heap (b.block.lo + 8) = none := by
  obtain ⟨u, hu⟩ : ∃ u, exec (request 4096) twiceGiven emptyHeap = some u :=
    Option.isSome_iff_exists.mp (by decide +kernel)
  obtain ⟨tr, hrun, hlabels⟩ := run_of_exec hu
  have hval : (exec (request 4096) twiceGiven emptyHeap).map (fun u =>
      (u.heap.freep, u.heap.ptr 4096, u.heap.ptr 48200, u.held.map fun b => b.block.lo)) =
        some (4096, 48200, 4096, [80944, 48200, 8192]) := by decide +kernel
  rw [hu, Option.map_some, Option.some.injEq, Prod.mk.injEq, Prod.mk.injEq, Prod.mk.injEq] at hval
  obtain ⟨hfreep, hbase, hrest, hheld⟩ := hval
  obtain ⟨b, hb, hlo⟩ : ∃ b ∈ u.held, b.block.lo = 48200 :=
    List.mem_map.mp (hheld ▸ by decide)
  refine ⟨tr, u, hrun, hlabels, b, hb, ?_⟩
  have hplace : findPlace u.heap 48200 = none := by
    refine walk_eq_none (S := fun p => p = 4096 ∨ p = 48200) ?_ ?_ _ (.inl hfreep)
    · rintro p (rfl | rfl)
      · exact .inr hbase
      · exact .inl hrest
    · rintro p (rfl | rfl)
      · rw [hbase]
        rfl
      · rw [hrest]
        rfl
  unfold free
  rw [hlo]
  simp only [show (48200 + 8 + (2 ^ 32 - 8)) % 2 ^ 32 = 48200 from by decide, hplace]
  rfl

end Xv6Arm.Umalloc
