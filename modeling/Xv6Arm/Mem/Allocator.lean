import Xv6Arm.Mem.Kalloc

/-!
# Runs of the page allocator

A run starts with `kinit1(end, P2V(4*1024*1024))`.  Its steps are calls of
`kalloc`, calls of `kfree` on pages that are handed out, writes of owners into
pages they hold, and at most one call of
`kinit2(P2V(4*1024*1024), P2V(PHYSTOP))`.

`handed` and `ranges` are history variables: the pages that are handed out, and
the ranges given to `freerange` so far.  A `panic` is a state from which the run
does not go on.
-/

namespace Xv6Arm.Allocator

/-- The allocator with its history. -/
structure State where
  /-- Memory and the free list. -/
  kmem : Kmem
  /-- The pages that are handed out. -/
  handed : List Word
  /-- The ranges given to `freerange`, last first. -/
  ranges : List (Word × Word)
  /-- The allocator did not return. -/
  fault : Option Fault

/-- The steps of a run. -/
inductive Label
  | kalloc
  | kfree (v : Word)
  /-- An owner writes the word `w` at the address `a`. -/
  | write (a w : Word)
  | kinit2

/-- The state after a call of `freerange` or `kfree`. -/
def State.result (s : State) : Except Fault Kmem → State
  | .ok k => { s with kmem := k }
  | .error e => { s with fault := some e }

/-- The range of `kinit1`. -/
def range₁ (kend : Word) : Word × Word := (kend, p2v ENTRYMEM)

/-- The range of `kinit2`. -/
def range₂ : Word × Word := (p2v ENTRYMEM, p2v PHYSTOP)

/-- The state after `kinit1`, which finds `kmem.freelist` 0. -/
def start (kend : Word) (mem : Mem) : State :=
  State.result
    { kmem := { mem := mem, freelist := 0 }, handed := [], ranges := [range₁ kend], fault := none }
    (Xv6Arm.kinit1 kend (range₁ kend).1 (range₁ kend).2 { mem := mem, freelist := 0 })

/-- What a step does to an allocator that did not panic. -/
def act (kend : Word) (s : State) : Label → Option State
  | .kalloc =>
      some { s with
        kmem := (Xv6Arm.kalloc s.kmem).2
        handed := if (Xv6Arm.kalloc s.kmem).1 = 0 then s.handed
          else (Xv6Arm.kalloc s.kmem).1 :: s.handed }
  | .kfree v =>
      if v ∈ s.handed then
        some (State.result { s with handed := s.handed.erase v } (Xv6Arm.kfree kend v s.kmem))
      else none
  | .write a w =>
      if ∃ v ∈ s.handed, InPage v a then
        some { s with kmem := { s.kmem with mem := Function.update s.kmem.mem (v2p a) w } }
      else none
  | .kinit2 =>
      if s.ranges.length = 1 then
        some (State.result { s with ranges := range₂ :: s.ranges }
          (Xv6Arm.kinit2 kend range₂.1 range₂.2 s.kmem))
      else none

/-- One step of a run. -/
def step (kend : Word) (l : Label) (s : State) : Option State :=
  if s.fault = none then act kend s l else none

/-- A page that `freerange` was given. -/
def State.Managed (s : State) (p : Word) : Prop := ∃ r ∈ s.ranges, WholePage r.1 r.2 p

/-- The free list after a step, which had the free list `l` before. -/
def nextFree (l : List Word) : Label → List Word
  | .kalloc => l.tail
  | .kfree v => v :: l
  | .write _ _ => l
  | .kinit2 => freed range₂.2 (2 ^ 20 + 1) (PGROUNDUP range₂.1) l

/-! ## The invariant -/

/-- The free list runs through `l`, and the pages of `l` and the pages that are
handed out are all the managed pages, each once. -/
structure Sound (kend : Word) (s : State) (l : List Word) : Prop where
  fault : s.fault = none
  ranges : s.ranges = [range₁ kend] ∨ s.ranges = [range₂, range₁ kend]
  free : Free s.kmem l
  nodup : (l ++ s.handed).Nodup
  managed : ∀ p, p ∈ l ++ s.handed ↔ s.Managed p

section Invariant

variable {kend : Word} {s t : State} {l : List Word}

/-- The managed pages lie between the kernel and the top of memory. -/
theorem Sound.freeable (hlow : KERNBASE ≤ kend) (hhigh : kend ≤ p2v ENTRYMEM)
    (h : Sound kend s l) {p : Word} (hp : s.Managed p) : Freeable kend p ∧ p < p2v PHYSTOP := by
  obtain ⟨r, hr, hwhole⟩ := hp
  obtain ⟨halign, hge, htop⟩ := hwhole
  have hbound : kend ≤ r.1 ∧ r.2 ≤ p2v PHYSTOP := by
    have hmem : r = range₂ ∨ r = range₁ kend := by
      cases h.ranges with
      | inl he =>
          rw [he, List.mem_singleton] at hr
          exact Or.inr hr
      | inr he =>
          rw [he, List.mem_cons, List.mem_singleton] at hr
          exact hr
    cases hmem with
    | inl he =>
        rw [he]
        exact ⟨hhigh, by decide⟩
    | inr he =>
        rw [he]
        exact ⟨BitVec.le_refl kend, show p2v ENTRYMEM ≤ p2v PHYSTOP by decide⟩
  obtain ⟨hb₁, hb₂⟩ := hbound
  have hlt : p < p2v PHYSTOP := by bv_omega
  refine ⟨⟨halign, BitVec.le_trans hb₁ hge, ?_⟩, hlt⟩
  have htop' : p.toNat < 3254779904 := hlt
  rw [KERNBASE] at hlow
  rw [v2p, PHYSTOP, KERNBASE]
  bv_omega

theorem Sound.aligned (h : Sound kend s l) {p : Word} (hp : p ∈ l ++ s.handed) : Aligned p := by
  obtain ⟨r, -, hwhole⟩ := (h.managed p).mp hp
  exact hwhole.1

/-- `kinit1` leaves a sound state. -/
theorem start_sound (hlow : KERNBASE ≤ kend) (hhigh : kend ≤ p2v ENTRYMEM) (mem : Mem) :
    ∃ l, Sound kend (start kend mem) l ∧ l = freed (p2v ENTRYMEM) (2 ^ 20 + 1) (PGROUNDUP kend) [] ∧
      Filled (start kend mem).kmem.mem l := by
  have hempty : Free { mem := mem, freelist := 0 } [] := rfl
  obtain ⟨k₁, l₁, hrun, hfree, hnd, hmem, hl₁, hfill⟩ := freerange_run kend (p2v ENTRYMEM)
    hlow (BitVec.le_refl kend) (BitVec.le_trans hhigh (by decide)) (by decide) hempty
    List.nodup_nil (fun q hq => by cases hq) (fun q hq => by cases hq)
  have hstart : start kend mem =
      { kmem := k₁, handed := [], ranges := [range₁ kend], fault := none } :=
    congrArg (State.result _) hrun
  rw [hstart]
  refine ⟨l₁, ⟨rfl, Or.inl rfl, hfree, by rw [List.append_nil]; exact hnd, fun p => ?_⟩, hl₁,
    hfill fun p hp => by cases hp⟩
  rw [List.append_nil, hmem p]
  constructor
  · rintro (hp | hp)
    · cases hp
    · exact ⟨_, List.mem_singleton.mpr rfl, hp⟩
  · rintro ⟨r, hr, hp⟩
    rw [List.mem_singleton.mp hr] at hp
    exact Or.inr hp

/-- What a step makes of a sound state, and of the contents of the free pages. -/
def Next (kend : Word) (s t : State) (l : List Word) (lab : Label) : Prop :=
  Sound kend t (nextFree l lab) ∧ (Filled s.kmem.mem l → Filled t.kmem.mem (nextFree l lab))

/-- `kalloc` moves the first free page to the pages that are handed out. -/
theorem Sound.kalloc_step (h : Sound kend s l) (hst : act kend s .kalloc = some t) :
    Next kend s t l .kalloc := by
  have ht := Option.some.inj hst
  subst ht
  cases l with
  | nil =>
      rw [kalloc_nil h.free]
      exact ⟨⟨h.fault, h.ranges, h.free, h.nodup, h.managed⟩, id⟩
  | cons p l =>
      obtain ⟨hrun, hfree⟩ := kalloc_cons h.free
      have hp : p ≠ 0 := h.free.2.1
      rw [hrun]
      have hperm : (l ++ p :: s.handed).Perm (p :: l ++ s.handed) := List.perm_middle
      refine ⟨⟨h.fault, h.ranges, hfree, ?_, ?_⟩,
        fun hfill q hq => hfill q (List.mem_cons_of_mem p hq)⟩
      · show (l ++ if p = 0 then s.handed else p :: s.handed).Nodup
        rw [if_neg hp, hperm.nodup_iff]
        exact h.nodup
      · intro q
        show q ∈ (l ++ if p = 0 then s.handed else p :: s.handed) ↔ s.Managed q
        rw [if_neg hp, hperm.mem_iff]
        exact h.managed q

/-- `kfree` of a page that is handed out does not panic, and moves the page to
the free pages. -/
theorem Sound.kfree_step (hlow : KERNBASE ≤ kend) (hhigh : kend ≤ p2v ENTRYMEM)
    (h : Sound kend s l) {v : Word} (hst : act kend s (.kfree v) = some t) :
    Next kend s t l (.kfree v) := by
  by_cases hv : v ∈ s.handed
  · have hmem : v ∈ l ++ s.handed := List.mem_append_right l hv
    have hvl : v ∉ l := fun hvl => (List.nodup_append.mp h.nodup).2.2 v hvl v hv rfl
    have hfreeable := (h.freeable hlow hhigh ((h.managed v).mp hmem)).1
    obtain ⟨k₁, hrun, hfree, -, hfill⟩ := kfree_run hfreeable h.free
      (fun q hq => h.aligned (List.mem_append_left _ hq)) hvl
    have hst' : some (State.result { s with handed := s.handed.erase v }
        (Xv6Arm.kfree kend v s.kmem)) = some t := (if_pos hv).symm.trans hst
    rw [hrun] at hst'
    have ht := Option.some.inj hst'
    subst ht
    have hperm : (v :: l ++ s.handed.erase v).Perm (l ++ s.handed) :=
      (List.perm_middle.symm).trans ((List.perm_cons_erase hv).symm.append_left l)
    refine ⟨⟨h.fault, h.ranges, hfree, ?_, ?_⟩, hfill⟩
    · show (v :: l ++ s.handed.erase v).Nodup
      rw [hperm.nodup_iff]
      exact h.nodup
    · intro q
      show q ∈ (v :: l ++ s.handed.erase v) ↔ s.Managed q
      rw [hperm.mem_iff]
      exact h.managed q
  · have hst' : none = some t := (if_neg hv).symm.trans hst
    cases hst'

/-- An owner's write does not touch the free list. -/
theorem Sound.write_step (h : Sound kend s l) {a w : Word}
    (hst : act kend s (.write a w) = some t) : Next kend s t l (.write a w) := by
  by_cases hv : ∃ v ∈ s.handed, InPage v a
  · have hst' : some { s with
        kmem := { s.kmem with mem := Function.update s.kmem.mem (v2p a) w } } = some t :=
      (if_pos hv).symm.trans hst
    have ht := Option.some.inj hst'
    subst ht
    have hother : ∀ q ∈ l, ∀ b, InPage (v2p q) b →
        Function.update s.kmem.mem (v2p a) w b = s.kmem.mem b := by
      intro q hq b hb
      apply Function.update_of_ne
      rintro rfl
      obtain ⟨v, hvs, hin⟩ := hv
      have hqv : v ≠ q := fun hvq => (List.nodup_append.mp h.nodup).2.2 q hq v hvs hvq.symm
      exact hin.ne (h.aligned (List.mem_append_right l hvs))
        (h.aligned (List.mem_append_left _ hq)) hqv ((inPage_v2p q a).mp hb)
    exact ⟨⟨h.fault, h.ranges, h.free.congr fun q hq => hother q hq _ (inPage_self _), h.nodup,
      h.managed⟩, fun hfill => hfill.congr hother⟩
  · have hst' : none = some t := (if_neg hv).symm.trans hst
    cases hst'

/-- The two ranges have no page in common. -/
theorem not_wholePage_range₂ (hr : s.ranges = [range₁ kend]) {p : Word} (hp : s.Managed p) :
    ¬ WholePage range₂.1 range₂.2 p := by
  obtain ⟨r, hmem, hwhole⟩ := hp
  rw [hr, List.mem_singleton] at hmem
  rw [hmem] at hwhole
  have htop := hwhole.2.2
  intro hw
  have hlow := hw.2.1
  rw [BitVec.le_def] at hlow
  have hval : range₂.1 = (range₁ kend).2 := rfl
  rw [hval] at hlow
  omega

/-- `kinit2` adds the pages of its range to the free pages. -/
theorem Sound.kinit2_step (hlow : KERNBASE ≤ kend) (hhigh : kend ≤ p2v ENTRYMEM)
    (h : Sound kend s l) (hst : act kend s .kinit2 = some t) : Next kend s t l .kinit2 := by
  by_cases hlen : s.ranges.length = 1
  · have hr : s.ranges = [range₁ kend] := by
      cases h.ranges with
      | inl he => exact he
      | inr he =>
          rw [he] at hlen
          cases hlen
    have hdisj : ∀ q, q ∈ l ++ s.handed → ¬ WholePage range₂.1 range₂.2 q :=
      fun q hq => not_wholePage_range₂ hr ((h.managed q).mp hq)
    obtain ⟨k₁, l₁, hrun, hfree, hnd, hmem, hl₁, hfill⟩ := freerange_run range₂.1 range₂.2
      hlow hhigh (by decide) (by decide) h.free
      (List.nodup_append.mp h.nodup).1 (fun q hq => h.aligned (List.mem_append_left _ hq))
      (fun q hq => hdisj q (List.mem_append_left _ hq))
    have hst' : some (State.result { s with ranges := range₂ :: s.ranges }
        (Xv6Arm.kinit2 kend range₂.1 range₂.2 s.kmem)) = some t := (if_pos hlen).symm.trans hst
    rw [kinit2, hrun] at hst'
    have ht := Option.some.inj hst'
    subst ht
    rw [Next, nextFree, ← hl₁]
    refine ⟨⟨h.fault, Or.inr (by rw [← hr]; rfl), hfree, ?_, ?_⟩, hfill⟩
    · show (l₁ ++ s.handed).Nodup
      have hold := List.nodup_append.mp h.nodup
      refine List.nodup_append.mpr ⟨hnd, hold.2.1, ?_⟩
      intro a ha b hb hab
      subst hab
      cases (hmem a).mp ha with
      | inl ha => exact hold.2.2 a ha a hb rfl
      | inr ha => exact hdisj a (List.mem_append_right l hb) ha
    · intro q
      show q ∈ l₁ ++ s.handed ↔ ∃ r ∈ range₂ :: s.ranges, WholePage r.1 r.2 q
      rw [List.mem_append, hmem q, List.exists_mem_cons_iff, or_right_comm, ← List.mem_append,
        h.managed q, or_comm]
      rfl
  · have hst' : none = some t := (if_neg hlen).symm.trans hst
    cases hst'

theorem Sound.step_eq (h : Sound kend s l) (lab : Label) :
    Allocator.step kend lab s = act kend s lab := if_pos h.fault

theorem Sound.exists_kalloc (h : Sound kend s l) :
    ∃ t, Allocator.step kend .kalloc s = some t ∧ t.ranges = s.ranges :=
  ⟨_, h.step_eq .kalloc, rfl⟩

theorem Sound.exists_kinit2 (h : Sound kend s l) (hr : s.ranges = [range₁ kend]) :
    ∃ t, Allocator.step kend .kinit2 s = some t :=
  ⟨_, (h.step_eq .kinit2).trans (if_pos (by rw [hr]; rfl))⟩

/-- Every step keeps the allocator sound. -/
theorem Sound.step (hlow : KERNBASE ≤ kend) (hhigh : kend ≤ p2v ENTRYMEM) {lab : Label}
    (h : Sound kend s l) (hst : step kend lab s = some t) : Next kend s t l lab := by
  rw [h.step_eq] at hst
  cases lab with
  | kalloc => exact h.kalloc_step hst
  | kfree v => exact h.kfree_step hlow hhigh hst
  | write a w => exact h.write_step hst
  | kinit2 => exact h.kinit2_step hlow hhigh hst

end Invariant

/-! ## Safety of every run -/

/-- What holds in every state of a run.  The free list is finite, ends in 0 and
has no page twice; its pages lie between the kernel and the top of memory; they
and the pages that are handed out are disjoint and are all the managed pages.  So
no `kfree` panicked, and a `kalloc` returns a page that is not handed out, or 0 if
all of them are. -/
structure Safe (kend : Word) (s : State) : Prop where
  list : ∃ l, Free s.kmem l ∧ l.Nodup ∧
    (∀ p ∈ l, Aligned p ∧ kend ≤ p ∧ p < p2v PHYSTOP ∧ p ∉ s.handed) ∧
    ∀ p, p ∈ l ∨ p ∈ s.handed ↔ s.Managed p
  handed_nodup : s.handed.Nodup
  no_fault : s.fault = none
  fresh : (kalloc s.kmem).1 ∉ s.handed
  exhausted : (kalloc s.kmem).1 = 0 → ∀ p, s.Managed p → p ∈ s.handed

theorem Sound.safe {kend : Word} (hlow : KERNBASE ≤ kend) (hhigh : kend ≤ p2v ENTRYMEM)
    {s : State} {l : List Word} (h : Sound kend s l) : Safe kend s := by
  obtain ⟨hl, hh, hdisj⟩ := List.nodup_append.mp h.nodup
  refine ⟨⟨l, h.free, hl, ?_, fun p => by rw [← List.mem_append, h.managed p]⟩, hh, h.fault, ?_, ?_⟩
  · intro p hp
    obtain ⟨hf, htop⟩ := h.freeable hlow hhigh ((h.managed p).mp (List.mem_append_left _ hp))
    exact ⟨hf.1, hf.2.1, htop, fun hps => hdisj p hp p hps rfl⟩
  · cases l with
    | nil =>
        rw [kalloc_nil h.free]
        intro hmem
        exact (h.freeable hlow hhigh ((h.managed 0).mp hmem)).1.ne_zero rfl
    | cons p l =>
        rw [(kalloc_cons h.free).1]
        exact fun hmem => hdisj p (List.mem_cons_self ..) p hmem rfl
  · intro hzero p hp
    cases l with
    | nil => exact (h.managed p).mpr hp
    | cons q l =>
        rw [(kalloc_cons h.free).1] at hzero
        exact absurd hzero h.free.2.1

/-- Every state of every run of the allocator is safe.  The kernel ends above
`KERNBASE`, where it is linked, and within the memory that `EntryPageTable`
maps. -/
theorem allocator_safe {kend : Word} (hlow : KERNBASE ≤ kend) (hhigh : kend ≤ p2v ENTRYMEM)
    {mem : Mem} {tr : List (State × Label)} {s : State}
    (hr : Runs.Run (step kend) (start kend mem) tr s) : Safe kend s := by
  obtain ⟨l₀, hstart, -⟩ := start_sound hlow hhigh mem
  obtain ⟨l, hs⟩ := hr.invariant_last (I := fun s => ∃ l, Sound kend s l)
    (fun s lab t h hst => h.elim fun l hl => ⟨_, (hl.step hlow hhigh hst).1⟩) ⟨l₀, hstart⟩
  exact hs.safe hlow hhigh

theorem start_ranges (kend : Word) (mem : Mem) : (start kend mem).ranges = [range₁ kend] := by
  unfold start State.result
  split <;> rfl

/-- A page is handed out before `kinit2` and another one after it, on a kernel
that ends at `0xc0014040`. -/
theorem allocator_safe_kinit2 :
    ∃ tr s, Runs.Run (step 0xc0014040) (start 0xc0014040 fun _ => 5) tr s ∧
      tr.map Prod.snd = [.kalloc, .kinit2, .kalloc] ∧ Safe 0xc0014040 s := by
  have hlow : KERNBASE ≤ (0xc0014040 : Word) := by decide
  have hhigh : (0xc0014040 : Word) ≤ p2v ENTRYMEM := by decide
  obtain ⟨l₀, h₀, -⟩ := start_sound hlow hhigh fun _ => 5
  obtain ⟨t₁, hs₁, hr₁⟩ := h₀.exists_kalloc
  have h₁ := (h₀.step hlow hhigh hs₁).1
  obtain ⟨t₂, hs₂⟩ := h₁.exists_kinit2 (hr₁.trans (start_ranges _ _))
  have h₂ := (h₁.step hlow hhigh hs₂).1
  obtain ⟨t₃, hs₃, -⟩ := h₂.exists_kalloc
  have hr := Runs.Run.cons hs₁ (Runs.Run.cons hs₂ (Runs.Run.cons hs₃ (Runs.Run.nil _)))
  exact ⟨_, _, hr, rfl, allocator_safe hlow hhigh hr⟩

end Xv6Arm.Allocator
