import Xv6Arm.Mem.Allocator

/-!
# Recycled pages

`kfree` fills a page and then writes the link of the free list into its first word, so
nothing that an owner wrote is left in a page that `kalloc` returns.  Two runs of the
allocator with the same calls return the same pages with the same contents, whatever the
owners of pages write.
-/

namespace Xv6Arm.Allocator

open Runs

/-- The words of a page. -/
def contents (mem : Mem) (p : Word) : List Word :=
  (List.range 1024).map fun i => mem (v2p p + BitVec.ofNat 32 (4 * i))

/-- What a call of `kalloc` returns: the page and its contents, or 0. -/
def returned (s : State) : Label → Option (Word × List Word)
  | .kalloc =>
      let (p, k) := Xv6Arm.kalloc s.kmem
      some (p, if p = 0 then [] else contents k.mem p)
  | _ => none

/-- The calls of the allocator, as opposed to the writes of owners. -/
def isCall : Label → Bool
  | .write _ _ => false
  | _ => true

/-- Two states with the same free list, whose pages are filled in both. -/
def SameFree (kend : Word) (s t : State) : Prop :=
  ∃ l, (Sound kend s l ∧ Filled s.kmem.mem l) ∧ Sound kend t l ∧ Filled t.kmem.mem l

variable {kend : Word} {s t : State}

/-- The contents of the first free page depend on the free list alone. -/
theorem contents_eq {k k' : Kmem} {p : Word} {l : List Word} (h : Free k (p :: l))
    (h' : Free k' (p :: l)) (hf : Filled k.mem (p :: l)) (hf' : Filled k'.mem (p :: l)) :
    contents k.mem p = contents k'.mem p := by
  have hlink : k.mem (v2p p) = k'.mem (v2p p) := Chain.start_eq h.2.2 h'.2.2
  unfold contents
  refine List.map_congr_left fun i hi => ?_
  rw [List.mem_range] at hi
  by_cases hzero : i = 0
  · rw [hzero, show v2p p + BitVec.ofNat 32 (4 * 0) = v2p p by bv_omega, hlink]
  · have hpos := Nat.pos_of_ne_zero hzero
    rw [hf p (List.mem_cons_self ..) i hpos hi, hf' p (List.mem_cons_self ..) i hpos hi]

theorem SameFree.returned_eq (h : SameFree kend s t) (lab : Label) :
    returned s lab = returned t lab := by
  obtain ⟨l, ⟨hs, hfs⟩, ht, hft⟩ := h
  cases lab with
  | kalloc =>
      cases l with
      | nil =>
          rw [returned, returned, kalloc_nil hs.free, kalloc_nil ht.free]
          simp only [if_true]
      | cons p l =>
          rw [returned, returned, (kalloc_cons hs.free).1, (kalloc_cons ht.free).1]
          simp only [contents_eq hs.free ht.free hfs hft]
  | kfree v => rfl
  | write a w => rfl
  | kinit2 => rfl

/-- Two runs of the allocator that make the same calls, and differ in what owners write into the
pages they hold and in what memory holds before `kinit1`: every `kalloc` returns the same page
with the same contents. -/
theorem recycled_alike (hlow : KERNBASE ≤ kend) (hhigh : kend ≤ p2v ENTRYMEM) {mem mem' : Mem}
    {tr tr' : List (State × Label)} (hr : Run (step kend) (start kend mem) tr s)
    (hr' : Run (step kend) (start kend mem') tr' t)
    (hcalls : visible isCall tr = visible isCall tr') :
    observed isCall returned tr = observed isCall returned tr' := by
  have hstart : SameFree kend (start kend mem) (start kend mem') := by
    obtain ⟨l, hs, hl, hf⟩ := start_sound hlow hhigh mem
    obtain ⟨l', hs', hl', hf'⟩ := start_sound hlow hhigh mem'
    obtain rfl : l = l' := hl.trans hl'.symm
    exact ⟨l, ⟨hs, hf⟩, hs', hf'⟩
  have hnext : ∀ {s t l lab}, Sound kend s l ∧ Filled s.kmem.mem l → step kend lab s = some t →
      Sound kend t (nextFree l lab) ∧ Filled t.kmem.mem (nextFree l lab) :=
    fun h hst => ⟨(h.1.step hlow hhigh hst).1, (h.1.step hlow hhigh hst).2 h.2⟩
  refine hr.observed_eq (B := SameFree kend) ?_ ?_ ?_ (fun _ _ lab h _ => h.returned_eq lab) hr'
    hstart hcalls
  · rintro s t lab s' ⟨l, hs, ht⟩ hhidden hst
    cases lab with
    | write a w => exact ⟨l, hnext hs hst, ht⟩
    | _ => cases hhidden
  · rintro s t lab t' ⟨l, hs, ht⟩ hhidden hst
    cases lab with
    | write a w => exact ⟨l, hs, hnext ht hst⟩
    | _ => cases hhidden
  · rintro s t lab s' t' ⟨l, hs, ht⟩ - hst hst'
    exact ⟨nextFree l lab, hnext hs hst, hnext ht hst'⟩

section Instance

variable {p : Word} {l : List Word}

theorem exists_kalloc_cons (h : Sound kend s (p :: l)) :
    ∃ t, step kend .kalloc s = some t ∧ p ∈ t.handed := by
  refine ⟨_, h.step_eq .kalloc, ?_⟩
  rw [(kalloc_cons h.free).1]
  show p ∈ if p = 0 then s.handed else p :: s.handed
  rw [if_neg h.free.2.1]
  exact List.mem_cons_self ..

theorem exists_write (h : Sound kend s l) (hp : p ∈ s.handed) (w : Word) :
    ∃ t, step kend (.write p w) s = some t ∧ p ∈ t.handed :=
  ⟨_, (h.step_eq _).trans (if_pos ⟨p, hp, inPage_self p⟩), hp⟩

theorem exists_kfree (h : Sound kend s l) (hp : p ∈ s.handed) :
    ∃ t, step kend (.kfree p) s = some t :=
  ⟨_, (h.step_eq _).trans (if_pos hp)⟩

/-- `kinit1` of a kernel that ends at `0xc0014040` frees a page. -/
theorem start_ne_nil {mem : Mem} (h : Sound 0xc0014040 (start 0xc0014040 mem) l) : l ≠ [] := by
  rintro rfl
  have hhanded : (start 0xc0014040 mem).handed = [] := by
    unfold start State.result
    split <;> rfl
  have hmem := (h.managed 0xc0015000).mpr ⟨range₁ 0xc0014040, by
    rw [start_ranges]
    exact List.mem_singleton.mpr rfl, by decide, by decide, by decide⟩
  rw [hhanded] at hmem
  cases hmem

/-- A page is handed out, freed and handed out again.  In the first run its owner writes into
it. -/
theorem recycled_alike_written : ∃ p tr s tr' t,
    Run (step 0xc0014040) (start 0xc0014040 fun _ => 5) tr s ∧
    tr.map Prod.snd = [.kalloc, .write p 1, .kfree p, .kalloc] ∧
    Run (step 0xc0014040) (start 0xc0014040 fun _ => 5) tr' t ∧
    tr'.map Prod.snd = [.kalloc, .kfree p, .kalloc] ∧
    observed isCall returned tr = observed isCall returned tr' := by
  have hlow : KERNBASE ≤ (0xc0014040 : Word) := by decide
  have hhigh : (0xc0014040 : Word) ≤ p2v ENTRYMEM := by decide
  obtain ⟨l₀, h₀, -⟩ := start_sound hlow hhigh fun _ => 5
  obtain ⟨p, l, rfl⟩ := List.exists_cons_of_ne_nil (start_ne_nil h₀)
  obtain ⟨s₁, hs₁, hp₁⟩ := exists_kalloc_cons h₀
  have h₁ := (h₀.step hlow hhigh hs₁).1
  obtain ⟨s₂, hs₂, hp₂⟩ := exists_write h₁ hp₁ 1
  have h₂ := (h₁.step hlow hhigh hs₂).1
  obtain ⟨s₃, hs₃⟩ := exists_kfree h₂ hp₂
  obtain ⟨s₄, hs₄, -⟩ := exists_kalloc_cons (h₂.step hlow hhigh hs₃).1
  obtain ⟨t₂, ht₂⟩ := exists_kfree h₁ hp₁
  obtain ⟨t₃, ht₃, -⟩ := exists_kalloc_cons (h₁.step hlow hhigh ht₂).1
  have hr := Run.cons hs₁ (.cons hs₂ (.cons hs₃ (.cons hs₄ (.nil _))))
  have hr' := Run.cons hs₁ (.cons ht₂ (.cons ht₃ (.nil _)))
  exact ⟨p, _, _, _, _, hr, rfl, hr', rfl, recycled_alike hlow hhigh hr hr' rfl⟩

end Instance

end Xv6Arm.Allocator
