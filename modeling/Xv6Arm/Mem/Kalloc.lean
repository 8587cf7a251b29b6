import Xv6Arm.Lib.Chain
import Xv6Arm.Lib.Runs
import Xv6Arm.Mem.Layout

/-!
# The page allocator

The model of `kalloc.c`.  The free pages form a list that is threaded through
their own first words.  `Free k l` says that the list from `kmem.freelist` runs
through the pages `l`; each function of the allocator is described by what it
does to `l`.

Each function runs under `kmem.lock` once there are several processes, so it is
one step here and the lock is left out.
-/

namespace Xv6Arm

/-- Why kernel code does not return. -/
inductive Fault
  /-- The kernel calls `panic`. -/
  | panic (msg : String)
  /-- A loop does not end. -/
  | diverges
  /-- An address is not mapped. -/
  | dataAbort (va : Word)
deriving DecidableEq

/-- Memory, and the variable `kmem`. -/
structure Kmem where
  /-- The words of memory. -/
  mem : Mem
  /-- The first free page, or 0. -/
  freelist : Word

/-- `kfree`.  `kend` is the address of the symbol `end`. -/
def kfree (kend v : Word) (k : Kmem) : Except Fault Kmem :=
  if v % PGSIZE ≠ 0 ∨ v < kend ∨ v2p v ≥ PHYSTOP then .error (.panic "kfree")
  else .ok
    { mem := Function.update (memset k.mem v 1 4096) (v2p v) k.freelist
      freelist := v }

/-- The loop of `freerange`, with a bound on its rounds. -/
def freeLoop (kend vend : Word) : Nat → Word → Kmem → Except Fault Kmem
  | 0, _, _ => .error .diverges
  | n + 1, p, k =>
      if p + PGSIZE ≤ vend then
        match kfree kend p k with
        | .ok k => freeLoop kend vend n (p + PGSIZE) k
        | .error e => .error e
      else .ok k

/-- `freerange`.  There are `2 ^ 20` pages, so a loop that ends does so in as
many rounds and one more test. -/
def freerange (kend vstart vend : Word) (k : Kmem) : Except Fault Kmem :=
  freeLoop kend vend (2 ^ 20 + 1) (PGROUNDUP vstart) k

/-- `kinit1`. -/
def kinit1 (kend vstart vend : Word) (k : Kmem) : Except Fault Kmem := freerange kend vstart vend k

/-- `kinit2`. -/
def kinit2 (kend vstart vend : Word) (k : Kmem) : Except Fault Kmem := freerange kend vstart vend k

/-- `kalloc`: the page, or 0. -/
def kalloc (k : Kmem) : Word × Kmem :=
  if k.freelist ≠ 0 then (k.freelist, { k with freelist := k.mem (v2p k.freelist) }) else (0, k)

/-! ## The free list -/

/-- The free list runs through the pages `l`. -/
def Free (k : Kmem) (l : List Word) : Prop := Chain 0 (fun p => k.mem (v2p p)) k.freelist l

variable {kend v p : Word} {k : Kmem} {l : List Word}

theorem Free.unique {l' : List Word} (h : Free k l) (h' : Free k l') : l = l' := Chain.unique h h'

/-- A memory that agrees on the links of the free pages. -/
theorem Free.congr (h : Free k l) {mem : Mem} (hm : ∀ q ∈ l, mem (v2p q) = k.mem (v2p q)) :
    Free { k with mem := mem } l := Chain.congr h hm

/-- `kalloc` takes the first page. -/
theorem kalloc_cons (h : Free k (p :: l)) :
    kalloc k = (p, { k with freelist := k.mem (v2p p) }) ∧
      Free { k with freelist := k.mem (v2p p) } l := by
  obtain ⟨hp, hne, ht⟩ := h
  refine ⟨?_, ht⟩
  rw [kalloc, hp, if_pos hne]

/-- `kalloc` returns 0 if there is none. -/
theorem kalloc_nil (h : Free k []) : kalloc k = (0, k) := by
  rw [kalloc, if_neg (fun hne => hne h)]

/-- The pages `kfree` accepts. -/
def Freeable (kend p : Word) : Prop := Aligned p ∧ kend ≤ p ∧ v2p p < PHYSTOP

theorem Freeable.aligned (h : Freeable kend p) : Aligned p := h.1

theorem Freeable.ne_zero (h : Freeable kend p) : p ≠ 0 := by
  rintro rfl
  exact absurd h.2.2 (by decide)

/-- Pages that are a whole number of pages apart in the kernel's addresses are so
in physical memory. -/
theorem inPage_v2p (p a : Word) : InPage (v2p p) (v2p a) ↔ InPage p a := by
  unfold InPage v2p
  rw [show a - KERNBASE - (p - KERNBASE) = a - p by bv_omega]

theorem Aligned.v2p (h : Aligned p) : Aligned (v2p p) := by
  unfold Aligned Xv6Arm.v2p KERNBASE at *
  bv_omega

/-- The free pages hold, after their links, what `kfree` fills a page with. -/
def Filled (mem : Mem) (l : List Word) : Prop :=
  ∀ p ∈ l, ∀ i, 0 < i → i < 1024 → mem (v2p p + BitVec.ofNat 32 (4 * i)) = fillWord 1

theorem inPage_word (q : Word) {i : Nat} (hi : i < 1024) :
    InPage q (q + BitVec.ofNat 32 (4 * i)) := by
  unfold InPage
  bv_omega

/-- A memory that agrees on the pages. -/
theorem Filled.congr {mem mem₁ : Mem} (h : Filled mem l)
    (hm : ∀ p ∈ l, ∀ a, InPage (v2p p) a → mem₁ a = mem a) : Filled mem₁ l := by
  intro p hp i hpos hi
  rw [hm p hp _ (inPage_word _ hi), h p hp i hpos hi]

/-- `kfree` puts a page in front. -/
theorem kfree_run (hv : Freeable kend v) (h : Free k l) (hl : ∀ q ∈ l, Aligned q) (hvl : v ∉ l) :
    ∃ k₁, kfree kend v k = .ok k₁ ∧ Free k₁ (v :: l) ∧
      (∀ a, ¬ InPage (v2p v) a → k₁.mem a = k.mem a) ∧
      (Filled k.mem l → Filled k₁.mem (v :: l)) := by
  have hguard : ¬ (v % PGSIZE ≠ 0 ∨ v < kend ∨ v2p v ≥ PHYSTOP) := by
    obtain ⟨halign, hlow, hhigh⟩ := hv
    unfold Aligned at halign
    have hmod : v % PGSIZE = 0 := by
      rw [PGSIZE]
      bv_omega
    rintro (hc | hc | hc)
    · exact hc hmod
    · bv_omega
    · bv_omega
  have hmem : ∀ a, ¬ InPage (v2p v) a →
      Function.update (memset k.mem v 1 4096) (v2p v) k.freelist a = k.mem a := by
    intro a ha
    have hne : a ≠ v2p v := by
      rintro rfl
      exact ha (inPage_self _)
    rw [Function.update_of_ne hne, memset_of_notInPage _ _ ha]
  have hother : ∀ q ∈ l, ∀ a, InPage (v2p q) a → ¬ InPage (v2p v) a := by
    intro q hq a ha
    exact ha.ne (hl q hq).v2p hv.aligned.v2p fun he => hvl (v2p_inj he ▸ hq)
  refine ⟨_, if_neg hguard, ⟨rfl, hv.ne_zero, ?_⟩, hmem, fun hfill p hp i hpos hi => ?_⟩
  · show Chain 0 _ (Function.update (memset k.mem v 1 4096) (v2p v) k.freelist (v2p v)) l
    rw [Function.update_self]
    apply Chain.congr h
    intro q hq
    exact hmem _ (hother q hq _ (inPage_self _))
  · cases List.mem_cons.mp hp with
    | inl hpv =>
        have hoff : (v2p v + BitVec.ofNat 32 (4 * i) - v2p v).toNat = 4 * i := by bv_omega
        have hne : v2p v + BitVec.ofNat 32 (4 * i) ≠ v2p v := by bv_omega
        rw [hpv]
        show Function.update _ _ _ _ = _
        rw [Function.update_of_ne hne, memset_apply _ _ _ _ (by decide) (by decide), hoff,
          if_pos (by omega)]
    | inr hpl => exact (hmem _ (hother p hpl _ (inPage_word _ hi))).trans (hfill p hpl i hpos hi)

/-! ## Ranges -/

/-- `p` is a whole page of the range from `lo` to `hi`. -/
def WholePage (lo hi p : Word) : Prop := Aligned p ∧ lo ≤ p ∧ p.toNat + 4096 ≤ hi.toNat

/-- The whole pages from `p` on are `p` and those from the next page on. -/
theorem wholePage_iff {vend q : Word} (hp : Aligned p) (hvend : vend ≤ p2v PHYSTOP)
    (hle : p + PGSIZE ≤ vend) (hhigh : p ≤ p2v PHYSTOP) :
    WholePage p vend q ↔ q = p ∨ WholePage (p + PGSIZE) vend q := by
  unfold WholePage Aligned at *
  rw [PGSIZE] at *
  rw [p2v, PHYSTOP, KERNBASE] at *
  constructor
  · rintro ⟨hq, hlow, htop⟩
    by_cases he : q = p
    · exact Or.inl he
    · refine Or.inr ⟨hq, ?_, htop⟩
      bv_omega
  · rintro (rfl | ⟨hq, hlow, htop⟩)
    · refine ⟨hp, ?_, ?_⟩
      · bv_omega
      · bv_omega
    · refine ⟨hq, ?_, htop⟩
      bv_omega

/-- The free list after the loop of `freerange`, which had the free list `l` before. -/
def freed (vend : Word) : Nat → Word → List Word → List Word
  | 0, _, l => l
  | n + 1, p, l => if p + PGSIZE ≤ vend then freed vend n (p + PGSIZE) (p :: l) else l

/-- Where the loop stops no whole page is left. -/
theorem not_wholePage {p vend q : Word} (hhigh : p ≤ p2v PHYSTOP) (hle : ¬ p + PGSIZE ≤ vend) :
    ¬ WholePage p vend q := by
  rintro ⟨-, hq, htop⟩
  rw [p2v, PHYSTOP, KERNBASE] at hhigh
  rw [PGSIZE] at hle
  bv_omega

theorem toNat_add_PGSIZE {p : Word} (hhigh : p ≤ p2v PHYSTOP) :
    (p + PGSIZE).toNat = p.toNat + 4096 := by
  rw [p2v, PHYSTOP, KERNBASE] at hhigh
  rw [PGSIZE]
  bv_omega

/-- The loop gives `kfree` pages that it takes. -/
theorem freeable_of_le {p vend : Word} (hbase : KERNBASE ≤ kend) (hvend : vend ≤ p2v PHYSTOP)
    (hp : Aligned p) (hlow : kend ≤ p) (hhigh : p ≤ p2v PHYSTOP) (hle : p + PGSIZE ≤ vend) :
    Freeable kend p := by
  refine ⟨hp, hlow, ?_⟩
  rw [p2v, PHYSTOP, KERNBASE] at hvend hhigh
  rw [KERNBASE] at hbase
  rw [PGSIZE] at hle
  rw [v2p, PHYSTOP, KERNBASE]
  bv_omega

/-- The loop of `freerange` frees the whole pages from `p` on. -/
theorem freeLoop_run {vend : Word} (hvend : vend ≤ p2v PHYSTOP) (hbase : KERNBASE ≤ kend) :
    ∀ {n : Nat} {p : Word} {k : Kmem} {l : List Word}, (vend.toNat - p.toNat) / 4096 ≤ n →
    Aligned p → kend ≤ p → p ≤ p2v PHYSTOP → Free k l → l.Nodup → (∀ q ∈ l, Aligned q) →
    (∀ q ∈ l, ¬ WholePage p vend q) →
    ∃ k₁ l₁, freeLoop kend vend (n + 1) p k = .ok k₁ ∧ Free k₁ l₁ ∧ l₁.Nodup ∧
      (∀ q, q ∈ l₁ ↔ q ∈ l ∨ WholePage p vend q) ∧ l₁ = freed vend (n + 1) p l ∧
      (Filled k.mem l → Filled k₁.mem l₁) := by
  intro n
  induction n with
  | zero =>
      intro p k l hn hp hlow hhigh h hnd hal hdisj
      have hstop : ¬ p + PGSIZE ≤ vend := by
        have hnext := toNat_add_PGSIZE hhigh
        rw [BitVec.le_def]
        omega
      refine ⟨k, l, if_neg hstop, h, hnd, fun q => ?_, (if_neg hstop).symm, id⟩
      exact ⟨Or.inl, fun hq => hq.resolve_right (not_wholePage hhigh hstop)⟩
  | succ n ih =>
      intro p k l hn hp hlow hhigh h hnd hal hdisj
      by_cases hle : p + PGSIZE ≤ vend
      · have hiff := fun q => wholePage_iff (q := q) hp hvend hle hhigh
        have hpl : p ∉ l := fun hmem => hdisj p hmem ((hiff p).mpr (Or.inl rfl))
        obtain ⟨k₁, hrun, hfree₁, -, hfill₁⟩ :=
          kfree_run (freeable_of_le hbase hvend hp hlow hhigh hle) h hal hpl
        -- The rest of the loop starts at the next page, with `p` in the list.
        have hnext := toNat_add_PGSIZE hhigh
        have hn' : (vend.toNat - (p + PGSIZE).toNat) / 4096 ≤ n := by
          rw [hnext]
          omega
        have hp' : Aligned (p + PGSIZE) := hp.add_PGSIZE
        have hlow' : kend ≤ p + PGSIZE := by
          rw [BitVec.le_def] at hlow ⊢
          omega
        have hal' : ∀ q ∈ p :: l, Aligned q := List.forall_mem_cons.mpr ⟨hp, hal⟩
        have hdisj' : ∀ q ∈ p :: l, ¬ WholePage (p + PGSIZE) vend q := by
          refine List.forall_mem_cons.mpr ⟨fun hw => ?_, fun q hq hw => ?_⟩
          · have hge := hw.2.1
            rw [BitVec.le_def] at hge
            omega
          · exact hdisj q hq ((hiff q).mpr (Or.inr hw))
        obtain ⟨k₂, l₂, hrun₂, hfree₂, hnd₂, hmem₂, hl₂, hfill₂⟩ := ih hn' hp' hlow'
          (BitVec.le_trans hle hvend) hfree₁ (List.nodup_cons.mpr ⟨hpl, hnd⟩) hal' hdisj'
        refine ⟨k₂, l₂, ?_, hfree₂, hnd₂, fun q => ?_, ?_, fun hfill => hfill₂ (hfill₁ hfill)⟩
        · rw [freeLoop, if_pos hle, hrun]
          exact hrun₂
        · rw [hmem₂ q, hiff q, List.mem_cons, or_assoc, or_left_comm]
        · rw [hl₂, freed, freed, if_pos hle]
          rfl
      · refine ⟨k, l, if_neg hle, h, hnd, fun q => ?_, (if_neg hle).symm, id⟩
        exact ⟨Or.inl, fun hq => hq.resolve_right (not_wholePage hhigh hle)⟩

/-- Rounding up does not lose a whole page. -/
theorem wholePage_PGROUNDUP {vstart vend q : Word} (h : vstart ≤ p2v PHYSTOP) :
    WholePage (PGROUNDUP vstart) vend q ↔ WholePage vstart vend q := by
  have hval : vstart.toNat ≤ 3254779904 := h
  have hup := toNat_PGROUNDUP (a := vstart) (by omega)
  unfold WholePage Aligned
  rw [BitVec.le_def, BitVec.le_def, hup]
  constructor
  · rintro ⟨hq, hlow, htop⟩
    exact ⟨hq, by omega, htop⟩
  · rintro ⟨hq, hlow, htop⟩
    exact ⟨hq, by omega, htop⟩

/-- `freerange` frees the whole pages of its range. -/
theorem freerange_run (vstart vend : Word) (hbase : KERNBASE ≤ kend) (hlow : kend ≤ vstart)
    (hstart : vstart ≤ p2v PHYSTOP) (hvend : vend ≤ p2v PHYSTOP) (h : Free k l) (hnd : l.Nodup)
    (hal : ∀ q ∈ l, Aligned q) (hdisj : ∀ q ∈ l, ¬ WholePage vstart vend q) :
    ∃ k₁ l₁, freerange kend vstart vend k = .ok k₁ ∧ Free k₁ l₁ ∧ l₁.Nodup ∧
      (∀ q, q ∈ l₁ ↔ q ∈ l ∨ WholePage vstart vend q) ∧
      l₁ = freed vend (2 ^ 20 + 1) (PGROUNDUP vstart) l ∧ (Filled k.mem l → Filled k₁.mem l₁) := by
  have hval : vstart.toNat ≤ 3254779904 := hstart
  have hup := toNat_PGROUNDUP (a := vstart) (by omega)
  obtain ⟨k₁, l₁, hrun, hfree, hnd₁, hmem, hl₁, hfill⟩ := freeLoop_run (p := PGROUNDUP vstart)
    (n := 2 ^ 20)
    hvend hbase
    (by
      have hlt := vend.isLt
      omega)
    (by
      unfold Aligned
      omega)
    (by
      rw [BitVec.le_def] at hlow ⊢
      omega)
    (by
      rw [BitVec.le_def, hup]
      show _ ≤ 3254779904
      omega)
    h hnd hal (fun q hq hw => hdisj q hq ((wholePage_PGROUNDUP hstart).mp hw))
  refine ⟨k₁, l₁, hrun, hfree, hnd₁, fun q => ?_, hl₁, hfill⟩
  rw [hmem q, wholePage_PGROUNDUP hstart]

end Xv6Arm
