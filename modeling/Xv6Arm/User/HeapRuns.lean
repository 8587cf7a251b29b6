import Xv6Arm.Lib.Runs
import Xv6Arm.User.FreeList

/-!
# Runs of the user allocator

What `malloc` does to the free and the allocated blocks, and the heap along every
sequence of requests.
-/

namespace Xv6Arm.Umalloc

open Bytes Circles Segments Runs

/-! ## Taking a block -/

section Take

variable {base nunits : Nat} {h : Heap} {held lower upper pre : List (Seg Nat)} {c q : Seg Nat}

/-- A block that fits exactly leaves the list. -/
theorem take_whole (hbase : base + 8 ≤ 2 ^ 32) (hg : Good base h (lower ++ c :: upper) held)
    (hq : root base :: lower = pre ++ [q]) (hsize : h.size c.lo = nunits) :
    ∃ h', take h q.lo c.lo nunits = (c.lo + 8, h') ∧
      Good base h' (lower ++ upper) (c :: held) ∧ h'.given = h.given := by
  have hc := hg.bounds (s := c) (by simp)
  have hpast : unitsPast c.lo 1 = c.lo + 8 := Nat.mod_eq_of_lt (by omega)
  have hl : root base :: (lower ++ c :: upper) = pre ++ q :: c :: upper := by
    rw [← List.cons_append, hq, List.append_assoc]
    rfl
  have hl' : root base :: (lower ++ upper) = pre ++ q :: upper := by
    rw [← List.cons_append, hq, List.append_assoc]
    rfl
  -- The links: the block before `c` is linked to the one after it.
  have hpath : Path h.ptr ((pre ++ q :: c :: upper).map Seg.lo) base := hl ▸ hg.circle
  rw [List.map_append] at hpath
  obtain ⟨hpre, -, hnext, hupper⟩ := path_append.mp hpath
  have hclear : ((pre ++ q :: c :: upper) ++ held).Pairwise fun s t => Clear s.lo t.lo := hl ▸ hg.clear
  obtain ⟨hlist, -, hheld⟩ := List.pairwise_append.mp hclear
  obtain ⟨-, hrest, hcross⟩ := List.pairwise_append.mp hlist
  have hqclear := (List.pairwise_cons.mp hrest).1
  have hbound : ∀ s ∈ pre ++ q :: c :: upper ++ held, s.lo + 8 ≤ 2 ^ 32 := by
    rw [← hl]
    exact fun s hs => (hg.header_le hbase hs).1
  have hqmem : q.lo + 8 ≤ 2 ^ 32 := hbound q (by simp)
  have hsame : ∀ s, s ∈ pre ∨ s ∈ c :: upper ∨ s ∈ held →
      Same h (h.setPtr q.lo (h.ptr c.lo)) s.lo := by
    intro s hs
    refine same_setPtr (hbound s ?_) ?_
    · rcases hs with hs | hs | hs
      · simp [hs]
      · exact List.mem_append_left _ (List.mem_append_right _ (List.mem_cons_of_mem _ hs))
      · exact List.mem_append_right _ hs
    · rcases hs with hs | hs | hs
      · exact (hcross s hs q List.mem_cons_self).symm
      · exact hqclear s hs
      · exact hheld q (by simp) s hs
  refine ⟨{ h.setPtr q.lo (h.ptr c.lo) with freep := q.lo }, ?_, ⟨?_, ?_, ?_, ?_, hg.given, ?_⟩, rfl⟩
  · unfold take
    rw [if_pos hsize, hpast]
  · show Path (h.setPtr q.lo (h.ptr c.lo)).ptr ((root base :: (lower ++ upper)).map Seg.lo) base
    rw [hl', List.map_append]
    refine path_append.mpr ⟨hpre.congr fun p hp => ?_, ?_, hupper.congr fun p hp => ?_⟩
    · obtain ⟨s, hs, rfl⟩ := List.mem_map.mp hp
      exact (hsame s (.inl hs)).1
    · rw [ptr_setPtr hqmem (ptr_lt ..)]
      exact hnext
    · obtain ⟨s, hs, rfl⟩ := List.mem_map.mp hp
      exact (hsame s (.inr (.inl (List.mem_cons_of_mem c hs)))).1
  · rw [hl']
    simp
  · intro s hs
    show Sized (h.setPtr q.lo (h.ptr c.lo)) s
    rw [hl'] at hs
    have hold : Sized h s := by
      refine hg.sized s ?_
      rw [hl]
      grind
    rcases eq_or_ne s q with rfl | hne
    · unfold Sized
      rw [size_setPtr_self hqmem]
      exact hold
    · refine hold.congr (hsame s ?_)
      grind
  · have hsub : (root base :: (lower ++ upper)).Sublist (root base :: (lower ++ c :: upper)) :=
      .cons_cons _ (.append (.refl lower) (List.sublist_cons_self c upper))
    exact hg.spaced.sublist hsub
  · have hperm : (lower ++ c :: upper ++ held).Perm (lower ++ upper ++ c :: held) := by
      refine List.perm_iff_count.mpr fun s => ?_
      simp only [List.count_append, List.count_cons]
      omega
    exact hg.tiles.perm hperm

/-- A free block is cut in two, of which the second is allocated.  Only the headers of the
two parts change. -/
theorem Good.cut {h₂ : Heap} {mid : Nat} (hg : Good base h (lower ++ c :: upper) held)
    (hlo : c.lo < mid) (hhi : mid < c.hi) (hptr : h₂.ptr c.lo = h.ptr c.lo)
    (hsize : Sized h₂ ⟨c.lo, mid⟩) (hsize' : Sized h₂ ⟨mid, c.hi⟩)
    (hsame : ∀ s ∈ root base :: (lower ++ upper ++ held), Same h h₂ s.lo)
    (hgiven : h₂.given = h.given)
    (hfreep : h₂.freep ∈ (root base :: (lower ++ c :: upper)).map Seg.lo) :
    Good base h₂ (lower ++ ⟨c.lo, mid⟩ :: upper) (⟨mid, c.hi⟩ :: held) := by
  have hmap : (root base :: (lower ++ ⟨c.lo, mid⟩ :: upper)).map Seg.lo =
      (root base :: (lower ++ c :: upper)).map Seg.lo := by
    simp only [List.map_cons, List.map_append]
  refine ⟨?_, hmap ▸ hfreep, ?_, ?_, hgiven ▸ hg.given, ?_⟩
  · rw [hmap]
    refine hg.circle.congr fun p hp => ?_
    obtain ⟨s, hs, rfl⟩ := List.mem_map.mp hp
    rcases eq_or_ne s c with rfl | hne
    · exact hptr
    · refine (hsame s ?_).1
      grind
  · intro s hs
    by_cases hold : s ∈ root base :: (lower ++ upper ++ held)
    · refine (hg.sized s ?_).congr (hsame s hold)
      grind
    · have hparts : s = ⟨c.lo, mid⟩ ∨ s = ⟨mid, c.hi⟩ := by
        grind
      rcases hparts with rfl | rfl
      · exact hsize
      · exact hsize'
  · obtain ⟨hlower, hrest, hcross⟩ := List.pairwise_append.mp
      (show Spaced ((root base :: lower) ++ c :: upper) from hg.spaced)
    obtain ⟨hgap, hupper⟩ := List.pairwise_cons.mp hrest
    refine List.pairwise_append.mpr ⟨hlower, List.pairwise_cons.mpr ⟨fun t ht => ?_, hupper⟩, ?_⟩
    · exact hhi.trans (hgap t ht)
    · intro s hs t ht
      rcases List.mem_cons.mp ht with rfl | ht
      · exact hcross s hs c List.mem_cons_self
      · exact hcross s hs t (List.mem_cons_of_mem c ht)
  · have hfirst : (lower ++ c :: upper ++ held).Perm (c :: (lower ++ upper ++ held)) := by
      rw [List.append_assoc, List.append_assoc]
      exact List.perm_middle
    have hback : (⟨c.lo, mid⟩ :: ⟨mid, c.hi⟩ :: (lower ++ upper ++ held)).Perm
        (lower ++ ⟨c.lo, mid⟩ :: upper ++ ⟨mid, c.hi⟩ :: held) := by
      refine List.perm_iff_count.mpr fun s => ?_
      simp only [List.count_append, List.count_cons]
      omega
    rw [hgiven]
    exact ((hg.tiles.perm hfirst).cut hlo hhi).perm hback

/-- The headers of the other blocks are not in a block. -/
theorem Good.off_block (hg : Good base h (lower ++ c :: upper) held) {s : Seg Nat}
    (hs : s ∈ root base :: (lower ++ upper ++ held)) : s.lo + 8 ≤ c.lo ∨ c.hi ≤ s.lo := by
  have hperm : (lower ++ c :: upper ++ held).Perm (c :: (lower ++ upper ++ held)) := by
    rw [List.append_assoc, List.append_assoc]
    exact List.perm_middle
  rcases List.mem_cons.mp hs with rfl | hs
  · exact .inl (hg.bounds (s := c) (by simp)).1
  · have hb := hg.bounds (hperm.mem_iff.mpr (List.mem_cons_of_mem c hs))
    have hcs : c.Off s := (List.pairwise_cons.mp (hg.tiles.perm hperm).off).1 s hs
    unfold Seg.Off at hcs
    omega

/-- The end of a block that is larger is cut off. -/
theorem take_end (hbase : base + 8 ≤ 2 ^ 32) (hg : Good base h (lower ++ c :: upper) held)
    (hq : q.lo ∈ (root base :: (lower ++ c :: upper)).map Seg.lo) (hn : 0 < nunits)
    (hsize : nunits < h.size c.lo) :
    ∃ h' mid, take h q.lo c.lo nunits = (mid + 8, h') ∧ c.hi = mid + 8 * nunits ∧
      Good base h' (lower ++ ⟨c.lo, mid⟩ :: upper) (⟨mid, c.hi⟩ :: held) ∧ h'.given = h.given := by
  have hc := hg.bounds (s := c) (by simp)
  have hsized : c.hi = c.lo + 8 * h.size c.lo := hg.sized c (by simp)
  obtain ⟨mid, hmid⟩ : ∃ mid, mid = c.lo + 8 * (h.size c.lo - nunits) := ⟨_, rfl⟩
  have hcmem : c.lo + 8 ≤ 2 ^ 32 := by omega
  have hnew : (h.setSize c.lo (h.size c.lo - nunits)).size c.lo = h.size c.lo - nunits :=
    size_setSize hcmem (by omega)
  have hpast : unitsPast c.lo (h.size c.lo - nunits) = mid := by
    rw [hmid]
    exact Nat.mod_eq_of_lt (by omega)
  have hpast' : unitsPast mid 1 = mid + 8 := Nat.mod_eq_of_lt (by omega)
  obtain ⟨h₂, hh₂⟩ : ∃ h₂, h₂ = (h.setSize c.lo (h.size c.lo - nunits)).setSize mid nunits :=
    ⟨_, rfl⟩
  have hcmid : Clear mid c.lo := .inr (by omega)
  have hptr : h₂.ptr c.lo = h.ptr c.lo := by
    rw [hh₂, (same_setSize hcmem hcmid).1, ptr_setSize_self hcmem]
  have hsizec : h₂.size c.lo = h.size c.lo - nunits := by
    rw [hh₂, (same_setSize hcmem hcmid).2, hnew]
  have hsizemid : h₂.size mid = nunits := by
    rw [hh₂]
    exact size_setSize (by omega) (by omega)
  have hsame : ∀ s ∈ root base :: (lower ++ upper ++ held), Same h h₂ s.lo := by
    intro s hs
    have hoff := hg.off_block hs
    have hb : s.lo + 8 ≤ 2 ^ 32 := (hg.header_le hbase (s := s) (by grind)).1
    rw [hh₂]
    exact (same_setSize hb (by unfold Clear; omega)).trans
      (same_setSize hb (by unfold Clear; omega))
  have hgiven : h₂.given = h.given := by rw [hh₂]; rfl
  refine ⟨{ h₂ with freep := q.lo }, mid, ?_, by omega, ?_, hgiven⟩
  · unfold take
    rw [if_neg (by omega)]
    simp only [hnew, hpast, hpast', hh₂]
  · refine hg.cut (by omega) (by omega) hptr ?_ ?_ hsame hgiven hq
    · show mid = c.lo + 8 * h₂.size c.lo
      omega
    · show c.hi = mid + 8 * h₂.size mid
      omega

theorem offers_take (prev p : Nat) : (take h prev p nunits).2.offers = h.offers := by
  unfold take
  split <;> rfl

end Take

/-! ## Memory from the kernel -/

section Morecore

variable {base nunits n : Nat} {h : Heap} {free held : List (Seg Nat)}

theorem offers_free {h' : Heap} {ap : Nat} (hfree : Umalloc.free h ap = some h') :
    h'.offers = h.offers := by
  have hjoin : ∀ bp p, (joinLower (joinUpper h bp p) bp p).offers = h.offers := by
    intro bp p
    unfold joinLower joinUpper
    split <;> split <;> rfl
  unfold Umalloc.free at hfree
  cases hplace : findPlace h ((ap + (2 ^ 32 - 8)) % 2 ^ 32) with
  | none =>
    simp only [hplace, Option.bind_eq_bind, Option.bind_none, reduceCtorEq] at hfree
  | some p =>
    simp only [hplace, Option.bind_eq_bind, Option.bind_some, Option.pure_def,
      Option.some.injEq] at hfree
    simp only [← hfree, hjoin]

theorem sbrk_nil (ho : h.offers = []) : sbrk base n h = (2 ^ 32 - 1, h) := by
  unfold sbrk
  rw [ho]

theorem sbrk_cons {a : Nat} {offers : List Nat} (ho : h.offers = a :: offers) :
    sbrk base n h =
      if n = 0 ∨ 2 ^ 31 ≤ n then (a, { h with offers })
      else if Fresh base h.given ⟨a, a + n⟩ then
        (a, { h with given := ⟨a, a + n⟩ :: h.given, offers })
      else (2 ^ 32 - 1, { h with offers }) := by
  unfold sbrk
  rw [ho]

/-- An answer of -1 changes nothing. -/
theorem sbrk_refused (hr : (sbrk base n h).1 = 2 ^ 32 - 1) :
    (sbrk base n h).2 = { h with offers := h.offers.tail } := by
  cases ho : h.offers with
  | nil =>
    rw [sbrk_nil ho, List.tail_nil, ← ho]
  | cons a offers =>
    rw [sbrk_cons ho] at hr ⊢
    split
    · rfl
    · next hn =>
      rw [if_neg hn] at hr
      split
      · next hfresh =>
        -- There is an address behind fresh memory.
        rw [if_pos hfresh] at hr
        have hhigh : a + n < 2 ^ 32 := hfresh.2.1
        have ha : a = 2 ^ 32 - 1 := hr
        omega
      · rfl

/-- An `int` that is positive is answered by -1 or by fresh memory. -/
theorem sbrk_given (hpos : 0 < n) (hint : n < 2 ^ 31) (hr : (sbrk base n h).1 ≠ 2 ^ 32 - 1) :
    ∃ a, Fresh base h.given ⟨a, a + n⟩ ∧ sbrk base n h =
      (a, { h with given := ⟨a, a + n⟩ :: h.given, offers := h.offers.tail }) := by
  cases ho : h.offers with
  | nil =>
    rw [sbrk_nil ho] at hr
    exact absurd rfl hr
  | cons a offers =>
    rw [sbrk_cons ho, if_neg (by omega)] at hr ⊢
    split
    · next hfresh => exact ⟨a, hfresh, rfl⟩
    · next hfresh =>
      rw [if_neg hfresh] at hr
      exact absurd rfl hr

/-- The units that `morecore` asks for. -/
def coreUnits (nu : Nat) : Nat := if nu < 4096 then 4096 else nu

/-- `sbrk` refuses what `morecore` asks for. -/
def Refused (base nu : Nat) (h : Heap) : Prop :=
  (sbrk base (coreUnits nu * 8 % 2 ^ 32) h).1 = 2 ^ 32 - 1

theorem morecore_refused (hr : Refused base nunits h) :
    morecore base nunits h = some (0, { h with offers := h.offers.tail }) := by
  have hsame := sbrk_refused hr
  unfold Refused at hr
  unfold morecore
  simp only [show (if nunits < 4096 then 4096 else nunits) = coreUnits nunits from rfl]
  rw [if_pos hr, hsame]

/-- Fresh memory with a header is an allocated block. -/
theorem Good.grow (hbase : base + 8 ≤ 2 ^ 32) (hg : Good base h free held) {a nu : Nat}
    (hnu : 0 < nu) (hfresh : Fresh base h.given ⟨a, a + nu * 8⟩) (offers : List Nat) :
    Good base ({ h with given := ⟨a, a + nu * 8⟩ :: h.given, offers }.setSize a nu)
      free (⟨a, a + nu * 8⟩ :: held) := by
  obtain ⟨hlow, hhigh, hoff⟩ := hfresh
  simp only at hlow hhigh hoff
  have htiles : Tiles (free ++ ⟨a, a + nu * 8⟩ :: held) (cover (⟨a, a + nu * 8⟩ :: h.given)) :=
    (hg.tiles.cons (by show a < a + nu * 8; omega) hoff).perm (List.perm_middle).symm
  -- The new memory lies off every block.
  have hclear : ∀ s ∈ root base :: free ++ held, Clear a s.lo ∧ s.lo + 8 ≤ 2 ^ 32 := by
    intro s hs
    rcases List.mem_cons.mp hs with rfl | hs
    · exact ⟨.inr hlow, hbase⟩
    · have hb := hg.bounds hs
      have hrs : (⟨a, a + nu * 8⟩ : Seg Nat).Off s :=
        (List.pairwise_cons.mp (htiles.perm List.perm_middle).off).1 s hs
      rcases hrs with hrs | hrs
      · exact ⟨.inl (by simp only at hrs; omega), by omega⟩
      · exact ⟨.inr (by simp only at hrs; omega), by omega⟩
  have hsame : ∀ s ∈ root base :: free ++ held, Same h
      ({ h with given := ⟨a, a + nu * 8⟩ :: h.given, offers }.setSize a nu) s.lo :=
    fun s hs => same_setSize (h := { h with given := ⟨a, a + nu * 8⟩ :: h.given, offers })
      (hclear s hs).2 (hclear s hs).1
  refine ⟨hg.circle.congr fun p hp => ?_, hg.freep, fun s hs => ?_, hg.spaced, ?_, htiles⟩
  · obtain ⟨s, hs, rfl⟩ := List.mem_map.mp hp
    exact (hsame s (List.mem_append_left held hs)).1
  · have hs : s ∈ (⟨a, a + nu * 8⟩ : Seg Nat) :: (root base :: free ++ held) :=
      List.perm_middle.mem_iff.mp hs
    rcases List.mem_cons.mp hs with rfl | hs
    · show a + nu * 8 = a + 8 * _
      rw [size_setSize (by omega) (by omega), Nat.mul_comm]
    · exact (hg.sized s hs).congr (hsame s hs)
  · exact List.forall_mem_cons.mpr ⟨⟨hlow, hhigh⟩, hg.given⟩

theorem Good.freep_ne_zero (hpos : 0 < base) (hg : Good base h free held) : h.freep ≠ 0 := by
  obtain ⟨s, hs, hfreep⟩ := List.mem_map.mp hg.freep
  rcases List.mem_cons.mp hs with rfl | hs
  · have hroot : base = h.freep := hfreep
    omega
  · have hb := hg.bounds (List.mem_append_left held hs)
    omega

/-- `morecore` adds a block that is large enough, if `sbrk` gives memory for it. -/
theorem morecore_good (hpos : 0 < base) (hbase : base + 8 ≤ 2 ^ 32) (hg : Good base h free held)
    (hn : nunits * 8 < 2 ^ 31) (hr : ¬ Refused base nunits h) :
    ∃ h' free', morecore base nunits h = some (h'.freep, h') ∧ h'.offers = h.offers.tail ∧
      Good base h' free' held ∧ ∃ c ∈ free', nunits ≤ h'.size c.lo := by
  obtain ⟨nu, hnu⟩ : ∃ nu, nu = coreUnits nunits := ⟨_, rfl⟩
  have hle : nunits ≤ nu ∧ 4096 ≤ nu ∧ nu * 8 < 2 ^ 31 := by
    rw [hnu]
    unfold coreUnits
    split <;> omega
  have hmod : nu * 8 % 2 ^ 32 = nu * 8 := Nat.mod_eq_of_lt (by omega)
  unfold Refused at hr
  rw [← hnu, hmod] at hr
  obtain ⟨a, hfresh, hsbrk⟩ := sbrk_given (by omega) hle.2.2 hr
  have hhigh : a + nu * 8 < 2 ^ 32 := hfresh.2.1
  obtain ⟨h', free', hfree, hgood, ⟨c, hc, hclo, hchi⟩, -⟩ :=
    free_good hpos hbase (hg.grow hbase (by omega) hfresh h.offers.tail)
  refine ⟨h', free', ?_, offers_free hfree, hgood, c, hc, ?_⟩
  · unfold morecore
    rw [show (if nunits < 4096 then 4096 else nunits) = nu from hnu.symm]
    simp only [hmod, hsbrk]
    rw [if_neg (show ¬ a = 2 ^ 32 - 1 by omega),
      show unitsPast a 1 = a + 8 from Nat.mod_eq_of_lt (by omega), hfree]
    rfl
  · have hsized : c.hi = c.lo + 8 * h'.size c.lo := hgood.sized c (by simp [hc])
    simp only at hclo hchi
    omega

end Morecore

/-! ## The loop of malloc -/

section Loop

variable {base nunits n : Nat} {h : Heap} {free held : List (Seg Nat)}

/-- The loop passes blocks that are too small. -/
theorem mallocLoop_pass (base n : Nat) {w : List Nat} {a e : Nat} (hpath : Path h.ptr (a :: w) e)
    (hsmall : ∀ p ∈ w, h.size p < nunits ∧ p ≠ h.freep) :
    ∃ prev ∈ a :: w, h.ptr prev = e ∧
      mallocLoop base nunits (n + w.length) a (first w e) h = mallocLoop base nunits n prev e h := by
  induction w generalizing a with
  | nil => exact ⟨a, List.mem_cons_self, hpath.1, rfl⟩
  | cons p w ih =>
    obtain ⟨hlt, hne⟩ := hsmall p List.mem_cons_self
    obtain ⟨prev, hmem, hlink, hloop⟩ := ih hpath.2 fun q hq => hsmall q (List.mem_cons_of_mem p hq)
    refine ⟨prev, List.mem_cons_of_mem a hmem, hlink, ?_⟩
    show mallocLoop base nunits (n + w.length + 1) a p h = _
    rw [mallocLoop, if_neg (by omega), if_neg hne, hpath.2.1]
    exact hloop

/-- `malloc` returned a new block. -/
def Made (base nunits : Nat) (held : List (Seg Nat)) (r : Nat × Heap) : Prop :=
  ∃ free b, r.1 = b.lo + 8 ∧ b.hi = b.lo + 8 * nunits ∧ Good base r.2 free (b :: held)

/-- A block that is found is taken. -/
theorem Good.take (hbase : base + 8 ≤ 2 ^ 32) (hg : Good base h free held) (hn : 0 < nunits)
    {prev p : Nat} (hprev : prev ∈ (root base :: free).map Seg.lo)
    (hp : p ∈ (root base :: free).map Seg.lo) (hlink : h.ptr prev = p) (hfit : nunits ≤ h.size p) :
    Made base nunits held (Umalloc.take h prev p nunits) := by
  obtain ⟨c, hc, rfl⟩ := List.mem_map.mp hp
  have hcfree : c ∈ free := by
    refine (List.mem_cons.mp hc).resolve_left ?_
    rintro rfl
    have hroot : base = base + 8 * h.size base := hg.sized (root base) (by simp)
    have hfit : nunits ≤ h.size base := hfit
    omega
  obtain ⟨lower, upper, rfl⟩ := List.append_of_mem hcfree
  obtain ⟨pre, q, hq⟩ : ∃ pre q, root base :: lower = pre ++ [q] :=
    ⟨_, _, (List.dropLast_append_getLast (List.cons_ne_nil _ _)).symm⟩
  have hl : root base :: (lower ++ c :: upper) = pre ++ q :: c :: upper := by
    rw [← List.cons_append, hq, List.append_assoc]
    rfl
  -- The block before it is the one with the link to it.
  have hqlink : h.ptr q.lo = c.lo := by
    have hpath : Path h.ptr ((root base :: (lower ++ c :: upper)).map Seg.lo) base := hg.circle
    rw [hl, List.map_append] at hpath
    exact (path_append.mp hpath).2.1
  have hqmem : q.lo ∈ (root base :: (lower ++ c :: upper)).map Seg.lo := by
    rw [hl]
    simp
  obtain rfl : prev = q.lo := hg.circle.next_inj (hg.increasing.imp Nat.ne_of_lt) hprev hqmem
    (hlink.trans hqlink.symm)
  have hsized : c.hi = c.lo + 8 * h.size c.lo := hg.sized c (by simp)
  rcases Nat.eq_or_lt_of_le hfit with hsize | hsize
  · obtain ⟨h', htake, hgood, -⟩ := take_whole hbase hg hq hsize.symm
    rw [htake]
    exact ⟨_, c, rfl, by rw [hsized, hsize], hgood⟩
  · obtain ⟨h', mid, htake, hhi, hgood, -⟩ := take_end hbase hg hqmem hn hsize
    rw [htake]
    exact ⟨_, ⟨mid, c.hi⟩, rfl, hhi, hgood⟩

/-- A block that is large enough is found in one round. -/
theorem mallocLoop_fits (hbase : base + 8 ≤ 2 ^ 32) (hg : Good base h free held) (hn : 0 < nunits)
    (hfit : ∃ c ∈ free, nunits ≤ h.size c.lo)
    (hlen : ((root base :: free).map Seg.lo).length ≤ n) :
    ∃ r, mallocLoop base nunits n h.freep (h.ptr h.freep) h = some r ∧ Made base nunits held r ∧
      r.2.offers = h.offers := by
  obtain ⟨w, hrot, hpath⟩ := hg.circle.path hg.freep
  have hnodup : (h.freep :: w).Nodup := hrot.nodup_iff.mpr (hg.increasing.imp Nat.ne_of_lt)
  have hmem : ∀ {p}, p ∈ w ++ [h.freep] ↔ p ∈ (root base :: free).map Seg.lo := fun {p} => by
    rw [← hrot.mem_iff, List.mem_append, List.mem_singleton, List.mem_cons, or_comm]
  -- The first block that is large enough.
  obtain ⟨c, hc, hlarge⟩ := hfit
  have hsome : ((w ++ [h.freep]).find? fun p => nunits ≤ h.size p).isSome := by
    refine List.find?_isSome.mpr ⟨c.lo, hmem.mpr ?_, decide_eq_true hlarge⟩
    exact List.mem_map_of_mem (List.mem_cons_of_mem _ hc)
  obtain ⟨p, hfind⟩ := Option.isSome_iff_exists.mp hsome
  obtain ⟨hp, u, v, huv, hsmall⟩ := List.find?_eq_some_iff_append.mp hfind
  have hp : nunits ≤ h.size p := of_decide_eq_true hp
  obtain ⟨hupto, hsub⟩ := hpath.upto (u := h.freep :: u) (v := v) (a := p)
    (by rw [List.cons_append, huv, List.cons_append])
  have hpass : ∀ q ∈ u, h.size q < nunits ∧ q ≠ h.freep := by
    intro q hq
    refine ⟨by simpa using hsmall q hq, ?_⟩
    rintro rfl
    -- `freep` is the last node of the round.
    have hround : (u ++ p :: v).Nodup := by
      rw [← huv]
      exact (List.perm_append_singleton ..).nodup_iff.mpr hnodup
    have hlast : h.freep ∈ p :: v := by
      have hend : (u ++ p :: v).getLast? = some h.freep := by rw [← huv, List.getLast?_concat]
      rw [List.getLast?_append_of_ne_nil _ (List.cons_ne_nil _ _)] at hend
      exact List.mem_of_getLast? hend
    exact (List.nodup_append.mp hround).2.2 _ hq _ hlast rfl
  have hulen : u.length < n := by
    have hround := congrArg List.length huv
    have hall := hrot.perm.length_eq
    simp only [List.length_append, List.length_cons, List.length_nil] at hround hall
    omega
  obtain ⟨k, rfl⟩ := Nat.exists_eq_add_of_lt hulen
  obtain ⟨prev, hprev, hlink, hloop⟩ := mallocLoop_pass base (k + 1) hupto hpass
  refine ⟨take h prev p nunits, ?_, ?_, offers_take prev p⟩
  · rw [hupto.1, show u.length + k + 1 = k + 1 + u.length by omega, hloop, mallocLoop, if_pos hp]
  · refine hg.take hbase hn (hrot.mem_iff.mp (hsub prev hprev)) (hmem.mp ?_) hlink hp
    rw [huv]
    simp

/-- If no block is large enough, the loop asks for memory after one round. -/
theorem mallocLoop_full (hg : Good base h free held) (hn : 0 < nunits)
    (hfull : ∀ c ∈ free, h.size c.lo < nunits) :
    mallocLoop base nunits (n + ((root base :: free).map Seg.lo).length) h.freep (h.ptr h.freep) h =
      (morecore base nunits h).bind fun r =>
        if r.1 = 0 then some (0, r.2) else mallocLoop base nunits n r.1 (r.2.ptr r.1) r.2 := by
  obtain ⟨w, hrot, hpath⟩ := hg.circle.path hg.freep
  have hnodup : (h.freep :: w).Nodup := hrot.nodup_iff.mpr (hg.increasing.imp Nat.ne_of_lt)
  have hsmall : ∀ p ∈ h.freep :: w, h.size p < nunits := by
    intro p hp
    obtain ⟨c, hc, rfl⟩ := List.mem_map.mp (hrot.mem_iff.mp hp)
    rcases List.mem_cons.mp hc with rfl | hc
    · have hroot : base = base + 8 * h.size base := hg.sized (root base) (by simp)
      show h.size base < nunits
      omega
    · exact hfull c hc
  obtain ⟨prev, -, -, hloop⟩ := mallocLoop_pass base (n + 1) hpath fun p hp =>
    ⟨hsmall p (List.mem_cons_of_mem _ hp), fun heq => (List.nodup_cons.mp hnodup).1 (heq ▸ hp)⟩
  have hlen : ((root base :: free).map Seg.lo).length = w.length + 1 := hrot.perm.length_eq.symm
  have hfreep := hsmall h.freep List.mem_cons_self
  rw [hlen, show n + (w.length + 1) = n + 1 + w.length by omega, hpath.1, hloop, mallocLoop,
    if_neg (by omega), if_pos rfl]
  rfl

/-- What `malloc` comes back with: a block that was on the list, one of the memory for which it
has called `sbrk` once, or nothing as this call has failed. -/
inductive Answer (base nunits : Nat) (h : Heap) (free held : List (Seg Nat)) (r : Nat × Heap) : Prop
  | found : (∃ c ∈ free, nunits ≤ h.size c.lo) → Made base nunits held r →
      r.2.offers = h.offers → Answer base nunits h free held r
  | given : ¬ Refused base nunits h → Made base nunits held r →
      r.2.offers = h.offers.tail → (∀ c ∈ free, h.size c.lo < nunits) →
      Answer base nunits h free held r
  | refused : (∀ c ∈ free, h.size c.lo < nunits) → Refused base nunits h → r.1 = 0 →
      r.2.offers = h.offers.tail → Good base r.2 free held → Answer base nunits h free held r

/-- A block, or null and the blocks as they were. -/
theorem Answer.made_or {r : Nat × Heap} (h : Answer base nunits h free held r) :
    Made base nunits held r ∨ (r.1 = 0 ∧ Good base r.2 free held) := by
  cases h with
  | found _ hmade _ => exact .inl hmade
  | given _ hmade _ _ => exact .inl hmade
  | refused _ _ hzero _ hg => exact .inr ⟨hzero, hg⟩

theorem Made.ne_zero {r : Nat × Heap} (h : Made base nunits held r) : r.1 ≠ 0 := by
  obtain ⟨free, b, hp, -, -⟩ := h
  omega

/-- The loop of `malloc` ends, if a block is large enough, or `sbrk` is asked for a positive number
of bytes, or it refuses. -/
theorem mallocLoop_good (hpos : 0 < base) (hbase : base + 8 ≤ 2 ^ 32) (hg : Good base h free held)
    (hn : 0 < nunits) (hback : (∃ c ∈ free, nunits ≤ h.size c.lo) ∨ nunits * 8 < 2 ^ 31 ∨
      Refused base nunits h) :
    ∃ r, mallocLoop base nunits (2 ^ 34) h.freep (h.ptr h.freep) h = some r ∧
      Answer base nunits h free held r := by
  have hlen := hg.length_le hbase
  by_cases hfit : ∃ c ∈ free, nunits ≤ h.size c.lo
  · obtain ⟨r, hloop, hmade, hoffers⟩ := mallocLoop_fits hbase hg hn hfit (n := 2 ^ 34) (by omega)
    exact ⟨r, hloop, .found hfit hmade hoffers⟩
  · have hfull : ∀ c ∈ free, h.size c.lo < nunits := fun c hc =>
      Nat.lt_of_not_le fun hle => hfit ⟨c, hc, hle⟩
    obtain ⟨k, hk⟩ := Nat.exists_eq_add_of_le (hlen.trans (show 2 ^ 32 ≤ 2 ^ 34 by omega))
    rw [hk, Nat.add_comm, mallocLoop_full hg hn hfull]
    by_cases hr : Refused base nunits h
    · rw [morecore_refused hr]
      exact ⟨(0, { h with offers := h.offers.tail }), rfl,
        .refused hfull hr rfl rfl (hg.congr (fun _ _ => ⟨rfl, rfl⟩) rfl rfl)⟩
    · have hint : nunits * 8 < 2 ^ 31 := (hback.resolve_left hfit).resolve_right hr
      obtain ⟨h', free', hmore, hoffers', hgood, hfit'⟩ := morecore_good hpos hbase hg hint hr
      obtain ⟨r, hloop, hmade, hoffers⟩ := mallocLoop_fits hbase hgood hn hfit' (n := k)
        (by have := hgood.length_le hbase; omega)
      refine ⟨r, ?_, .given hr hmade (hoffers.trans hoffers') hfull⟩
      rw [hmore]
      show (if h'.freep = 0 then _ else _) = _
      rw [if_neg (hgood.freep_ne_zero hpos)]
      exact hloop

end Loop

/-! ## Runs -/

/-- A block in use, and the size that was asked for.  The user's pointer is behind the header. -/
structure Held where
  block : Seg Nat
  nbytes : Nat
deriving DecidableEq

/-- The heap and the blocks in use. -/
structure State where
  heap : Heap
  held : List Held

/-- What a program does. -/
inductive Label
  | malloc (nbytes : Nat) (offers : List Nat)
  | free (ap : Nat)
  | store (a : Nat) (v : UInt8)

/-- The units of a request. -/
def units (nbytes : Nat) : Nat := (nbytes + 7) / 8 + 1

/-- The request, rounded up and with its header, is a positive `int`. -/
def Request (nbytes : Nat) : Prop := units nbytes * 8 < 2 ^ 31

instance (nbytes : Nat) : Decidable (Request nbytes) := inferInstanceAs (Decidable (_ < _))

/-- An address that the program may write. -/
def Owned (held : List Held) (a : Nat) : Prop := ∃ b ∈ held, b.block.lo + 8 ≤ a ∧ a < b.block.hi

instance (held : List Held) (a : Nat) : Decidable (Owned held a) :=
  inferInstanceAs (Decidable (∃ b ∈ held, _))

/-- What a program may do: ask for memory, give back what it has, and write into it. -/
def Allowed (s : State) : Label → Prop
  | .malloc nbytes _ => Request nbytes
  | .free ap => ∃ b ∈ s.held, b.block.lo + 8 = ap
  | .store a _ => Owned s.held a

/-- One step of a program. -/
def step (base : Nat) : Label → State → Option State
  | .malloc nbytes offers, s =>
      if Request nbytes then do
        let (p, heap) ← malloc base nbytes { s.heap with offers }
        if p = 0 then return { s with heap }
        else
          return { heap, held := ⟨⟨p - 8, p - 8 + 8 * units nbytes⟩, nbytes⟩ :: s.held }
      else none
  | .free ap, s =>
      match s.held.find? fun b => b.block.lo + 8 = ap with
      | none => none
      | some b => do
          let heap ← free s.heap ap
          return { heap, held := s.held.erase b }
  | .store a v, s =>
      if Owned s.held a then
        some { s with heap := { s.heap with mem := putLe s.heap.mem a 1 v.toNat } }
      else none

/-- Nothing has been asked for yet. -/
def Init (s : State) : Prop := s.heap.freep = 0 ∧ s.heap.given = [] ∧ s.held = []

/-- What a heap with a list looks like.  `free` are the free blocks. -/
structure WellFormed (base : Nat) (s : State) (free : List (Seg Nat)) : Prop where
  /-- The list from `freep` comes back to it. -/
  circular : s.heap.ptr^[free.length + 1] s.heap.freep = s.heap.freep
  /-- It runs once through `base` and the free blocks, upwards but for the way back to `base`. -/
  nodes : List.iterate s.heap.ptr s.heap.freep (free.length + 1) ~r (base :: free.map Seg.lo)
  ordered : (base :: free.map Seg.lo).Pairwise (· < ·)
  /-- No two blocks overlap or touch. -/
  spaced : Spaced (root base :: free)
  /-- The headers have the sizes of the blocks. -/
  sized : ∀ b ∈ root base :: free ++ s.held.map Held.block, b.hi = b.lo + 8 * s.heap.size b.lo
  /-- The free and the allocated blocks make up the memory from `sbrk`. -/
  tiles : Tiles (free ++ s.held.map Held.block) (cover s.heap.given)
  /-- Behind its header a block has the bytes that were asked for. -/
  owns : ∀ b ∈ s.held, b.block.lo + 8 + b.nbytes ≤ b.block.hi

/-- The number of units that `malloc` computes. -/
def nunits (nbytes : Nat) : Nat := (nbytes + 8 - 1) % 2 ^ 32 / 8 + 1

/-- A block of the list has `n` units. -/
def HasRoom (h : Heap) (n : Nat) : Prop := ∃ k, n ≤ h.size (h.ptr^[k] h.freep)

/-- `malloc` finds a block, or the number of bytes that it asks `sbrk` for is a positive `int`, or
`sbrk` refuses. -/
def Backed (base nbytes : Nat) (h : Heap) : Prop :=
  HasRoom (start base h) (nunits nbytes) ∨ nunits nbytes * 8 < 2 ^ 31 ∨
    Refused base (nunits nbytes) (start base h)

/-- The heap has not been used, or it has a list. -/
def Listed (base : Nat) (s : State) : Prop :=
  Init s ∨ ∃ free, Good base s.heap free (s.held.map Held.block)

/-- The invariant. -/
def Inv (base : Nat) (s : State) : Prop :=
  Init s ∨ ((∃ free, Good base s.heap free (s.held.map Held.block)) ∧
    ∀ b ∈ s.held, b.block.lo + 8 + b.nbytes ≤ b.block.hi)

section Runs

variable {base : Nat} {s t : State}

theorem Good.wellFormed {free : List (Seg Nat)} (hg : Good base s.heap free (s.held.map Held.block))
    (howns : ∀ b ∈ s.held, b.block.lo + 8 + b.nbytes ≤ b.block.hi) : WellFormed base s free := by
  obtain ⟨w, hrot, hpath⟩ := hg.circle.path hg.freep
  have hlen : free.length + 1 = (s.heap.freep :: w).length := by
    rw [hrot.perm.length_eq, List.length_map, List.length_cons]
  obtain ⟨hnodes, hback⟩ := hpath.iterate
  refine ⟨?_, ?_, hg.increasing, hg.spaced, hg.sized, hg.tiles, howns⟩
  · rw [hlen]
    exact hback
  · rw [hlen]
    exact hnodes.symm ▸ hrot

/-- The first call of `malloc` makes a list of `base` alone. -/
theorem Init.good (hpos : 0 < base) (hbase : base + 8 ≤ 2 ^ 32) (h : Init s) (offers : List Nat) :
    Good base (start base { s.heap with offers }) [] [] := by
  have hstart : start base { s.heap with offers } =
      ({ s.heap with offers, freep := base }.setPtr base base).setSize base 0 := if_pos h.1
  rw [hstart]
  refine ⟨⟨?_, trivial⟩, List.mem_cons_self, fun r hr => ?_, List.pairwise_singleton .., ?_, ?_⟩
  · rw [show (root base).lo = base from rfl, ptr_setSize_self hbase, ptr_setPtr hbase (by omega)]
    rfl
  · obtain rfl := List.mem_singleton.mp hr
    show base = base + 8 * _
    rw [show (root base).lo = base from rfl, size_setSize hbase (by omega)]
    rfl
  · show ∀ r ∈ s.heap.given, _
    rw [h.2.1]
    exact fun r hr => absurd hr List.not_mem_nil
  · show Tiles [] (cover s.heap.given)
    rw [h.2.1]
    exact Tiles.nil

/-- Where `malloc` starts there is a list. -/
theorem Listed.start_good (hpos : 0 < base) (hbase : base + 8 ≤ 2 ^ 32) (h : Listed base s)
    (offers : List Nat) :
    ∃ free, Good base (start base { s.heap with offers }) free (s.held.map Held.block) := by
  rcases h with h | ⟨free, hg⟩
  · refine ⟨[], ?_⟩
    rw [h.2.2]
    exact h.good hpos hbase offers
  · refine ⟨free, ?_⟩
    rw [show start base { s.heap with offers } = { s.heap with offers } from
      if_neg (hg.freep_ne_zero hpos)]
    exact hg.congr (fun _ _ => ⟨rfl, rfl⟩) rfl rfl

theorem Good.hasRoom_iff {h : Heap} {free held : List (Seg Nat)} {n : Nat}
    (hg : Good base h free held) (hn : 0 < n) :
    HasRoom h n ↔ ∃ c ∈ free, n ≤ h.size c.lo := by
  constructor
  · rintro ⟨k, hk⟩
    obtain ⟨c, hc, hlo⟩ := List.mem_map.mp ((hg.circle.mem_iff_iterate hg.freep).mpr ⟨k, rfl⟩)
    rw [← hlo] at hk
    refine ⟨c, (List.mem_cons.mp hc).resolve_left ?_, hk⟩
    rintro rfl
    have hroot : base = base + 8 * h.size base := hg.sized (root base) (by simp)
    have hk : n ≤ h.size base := hk
    omega
  · rintro ⟨c, hc, hsize⟩
    have hmem : c.lo ∈ (root base :: free).map Seg.lo :=
      List.mem_map_of_mem (List.mem_cons_of_mem _ hc)
    obtain ⟨k, hk⟩ := (hg.circle.mem_iff_iterate hg.freep).mp hmem
    exact ⟨k, hk ▸ hsize⟩

theorem malloc_eq (base nbytes : Nat) (h : Heap) : malloc base nbytes h =
    mallocLoop base (nunits nbytes) (2 ^ 34) (start base h).freep
      ((start base h).ptr (start base h).freep) (start base h) := rfl

/-- `malloc` returns. -/
theorem Listed.malloc (hpos : 0 < base) (hbase : base + 8 ≤ 2 ^ 32) (h : Listed base s)
    {nbytes : Nat} {offers : List Nat} (hback : Backed base nbytes { s.heap with offers }) :
    ∃ r free, malloc base nbytes { s.heap with offers } = some r ∧
      Good base (start base { s.heap with offers }) free (s.held.map Held.block) ∧
      Answer base (nunits nbytes) (start base { s.heap with offers }) free
        (s.held.map Held.block) r := by
  have hn : 0 < nunits nbytes := Nat.succ_pos _
  obtain ⟨free, hg⟩ := h.start_good hpos hbase offers
  obtain ⟨r, hloop, hanswer⟩ :=
    mallocLoop_good hpos hbase hg hn (hback.imp_left (hg.hasRoom_iff hn).mp)
  refine ⟨r, free, ?_, hg, hanswer⟩
  rw [malloc_eq]
  exact hloop

theorem nunits_eq {nbytes : Nat} (h : nbytes + 7 < 2 ^ 32) : nunits nbytes = units nbytes := by
  unfold nunits units
  omega

theorem Request.nunits_eq {nbytes : Nat} (h : Request nbytes) : nunits nbytes = units nbytes := by
  unfold Request units at h
  exact Umalloc.nunits_eq (by omega)

theorem Request.backed {nbytes : Nat} (h : Request nbytes) (heap : Heap) :
    Backed base nbytes heap :=
  .inr (.inl (h.nunits_eq ▸ h))

/-- `malloc` of a request returns. -/
theorem malloc_good (hpos : 0 < base) (hbase : base + 8 ≤ 2 ^ 32) (h : Listed base s) {nbytes : Nat}
    (hreq : Request nbytes) (offers : List Nat) :
    ∃ r free, malloc base nbytes { s.heap with offers } = some r ∧
      Answer base (units nbytes) (start base { s.heap with offers }) free
        (s.held.map Held.block) r := by
  obtain ⟨r, free, hmalloc, -, hanswer⟩ := h.malloc hpos hbase (hreq.backed { s.heap with offers })
  exact ⟨r, free, hmalloc, hreq.nunits_eq ▸ hanswer⟩

/-- `free` of a block in use returns. -/
theorem Listed.free (hpos : 0 < base) (hbase : base + 8 ≤ 2 ^ 32) (h : Listed base s) {b : Held}
    (hb : b ∈ s.held) :
    ∃ h', Umalloc.free s.heap (b.block.lo + 8) = some h' ∧ Listed base ⟨h', s.held.erase b⟩ := by
  rcases h with h | ⟨free, hg⟩
  · rw [h.2.2] at hb
    exact absurd hb List.not_mem_nil
  · obtain ⟨h', free', hfree, hgood, -, -⟩ :=
      free_good hpos hbase (hg.perm ((List.perm_cons_erase hb).map Held.block))
    exact ⟨h', hfree, .inr ⟨free', hgood⟩⟩

/-- A byte behind the header of a block in use is in no header. -/
theorem Listed.store (hbase : base + 8 ≤ 2 ^ 32) (h : Listed base s) {a : Nat}
    (ha : Owned s.held a) (v : Nat) :
    Listed base { s with heap := { s.heap with mem := putLe s.heap.mem a 1 v } } := by
  obtain ⟨b, hb, hlo, hhi⟩ := ha
  rcases h with h | ⟨free, hg⟩
  · rw [h.2.2] at hb
    exact absurd hb List.not_mem_nil
  have hbmem : b.block ∈ free ++ s.held.map Held.block :=
    List.mem_append_right _ (List.mem_map_of_mem hb)
  refine .inr ⟨free, hg.congr (fun c hc => ?_) rfl rfl⟩
  have haway : c.lo + 8 ≤ 2 ^ 32 ∧ (c.lo + 8 ≤ a ∨ a + 1 ≤ c.lo) := by
    rcases List.mem_cons.mp hc with rfl | hc
    · have hbb := hg.bounds hbmem
      exact ⟨hbase, .inl (by show base + 8 ≤ a; omega)⟩
    · have hcb := hg.bounds hc
      refine ⟨by omega, ?_⟩
      rcases eq_or_ne c b.block with rfl | hne
      · exact .inl hlo
      · have hoff : c.Off b.block := hg.tiles.off_of_ne hc hbmem hne
        unfold Seg.Off at hoff
        omega
  exact ⟨getLe_putLe_of_disjoint _ (by omega) (by omega),
    getLe_putLe_of_disjoint _ (by omega) (by omega)⟩

/-- What a program frees it has. -/
theorem find_held {ap : Nat} {b : Held} (hb : b ∈ s.held) (hap : b.block.lo + 8 = ap) :
    ∃ c ∈ s.held, c.block.lo + 8 = ap ∧
      s.held.find? (fun b => b.block.lo + 8 = ap) = some c := by
  have hsome : (s.held.find? fun b => b.block.lo + 8 = ap).isSome :=
    List.find?_isSome.mpr ⟨b, hb, decide_eq_true hap⟩
  obtain ⟨c, hc⟩ := Option.isSome_iff_exists.mp hsome
  exact ⟨c, List.mem_of_find?_eq_some hc, by simpa using List.find?_some hc, hc⟩

theorem inv_iff : Inv base s ↔
    Listed base s ∧ ∀ b ∈ s.held, b.block.lo + 8 + b.nbytes ≤ b.block.hi := by
  constructor
  · rintro (h | ⟨hg, howns⟩)
    · refine ⟨.inl h, ?_⟩
      rw [h.2.2]
      exact fun b hb => absurd hb List.not_mem_nil
    · exact ⟨.inr hg, howns⟩
  · rintro ⟨h | hg, howns⟩
    · exact .inl h
    · exact .inr ⟨hg, howns⟩

/-- The block of a pointer from `malloc` is the one that was made. -/
theorem Made.listed {n nbytes p : Nat} {heap : Heap}
    (h : Made base n (s.held.map Held.block) (p, heap)) :
    Listed base ⟨heap, ⟨⟨p - 8, p - 8 + 8 * n⟩, nbytes⟩ :: s.held⟩ := by
  obtain ⟨free, b, hp, hhi, hg⟩ := h
  obtain rfl : p = b.lo + 8 := hp
  have hblock : (⟨b.lo + 8 - 8, b.lo + 8 - 8 + 8 * n⟩ : Seg Nat) = b := by
    rw [Nat.add_sub_cancel, ← hhi]
  refine .inr ⟨free, ?_⟩
  show Good base heap free (⟨b.lo + 8 - 8, b.lo + 8 - 8 + 8 * n⟩ :: _)
  rw [hblock]
  exact hg

/-- A new block has room for the request. -/
theorem units_ge (nbytes : Nat) : 8 + nbytes ≤ 8 * units nbytes := by
  unfold units
  omega

/-- A step that a program may take is taken, and keeps the invariant. -/
theorem Inv.step (hpos : 0 < base) (hbase : base + 8 ≤ 2 ^ 32) (h : Inv base s) {l : Label}
    (hl : Allowed s l) : ∃ t, step base l s = some t ∧ Inv base t := by
  obtain ⟨hlist, howns⟩ := inv_iff.mp h
  cases l with
  | malloc nbytes offers =>
    obtain ⟨⟨p, heap⟩, free, hmalloc, hanswer⟩ := malloc_good hpos hbase hlist hl offers
    have hreq : Request nbytes := hl
    simp only [Umalloc.step, if_pos hreq, hmalloc]
    rcases hanswer.made_or with hmade | ⟨hp, hg⟩
    · refine ⟨_, if_neg hmade.ne_zero, inv_iff.mpr
        ⟨hmade.listed, List.forall_mem_cons.mpr ⟨?_, howns⟩⟩⟩
      have hroom := units_ge nbytes
      show p - 8 + 8 + nbytes ≤ p - 8 + 8 * units nbytes
      omega
    · obtain rfl : p = 0 := hp
      exact ⟨{ s with heap }, rfl, inv_iff.mpr ⟨.inr ⟨free, hg⟩, howns⟩⟩
  | free ap =>
    obtain ⟨b, hb, hap⟩ := hl
    obtain ⟨c, hc, hcap, hfind⟩ := find_held hb hap
    obtain ⟨h', hfree, hlist'⟩ := hlist.free hpos hbase hc
    rw [hcap] at hfree
    refine ⟨⟨h', s.held.erase c⟩, ?_, inv_iff.mpr ⟨hlist', fun b hb => ?_⟩⟩
    · simp only [Umalloc.step, hfind, hfree]
      rfl
    · exact howns b (List.mem_of_mem_erase hb)
  | store a v =>
    refine ⟨{ s with heap := { s.heap with mem := putLe s.heap.mem a 1 v.toNat } }, if_pos hl, ?_⟩
    exact inv_iff.mpr ⟨hlist.store hbase hl v.toNat, howns⟩

theorem allowed_of_step {l : Label} (h : step base l s = some t) : Allowed s l := by
  cases l with
  | malloc nbytes offers =>
    simp only [Umalloc.step] at h
    split at h
    · assumption
    · cases h
  | free ap =>
    simp only [Umalloc.step] at h
    split at h
    · cases h
    · next b hfind =>
      exact ⟨b, List.mem_of_find?_eq_some hfind, by simpa using List.find?_some hfind⟩
  | store a v =>
    simp only [Umalloc.step] at h
    split at h
    · assumption
    · cases h

/-- The heap of a program.  In every state of every run the list from `freep` is a circle through
`base` and the free blocks, in order and with gaps, and the free and the allocated blocks tile what
`sbrk` has given, each allocated one with room for what was asked for.  A program can go on: what it
may ask for is answered.  A pointer that `malloc` returns is that of a new block of this kind. -/
theorem heap_wellFormed (hpos : 0 < base) (hbase : base + 8 ≤ 2 ^ 32) {s u : State}
    {tr : List (State × Label)} (hs : Init s) (h : Run (step base) s tr u) :
    (Init u ∨ ∃ free, WellFormed base u free) ∧
    (∀ l, Allowed u l → ∃ t, step base l u = some t) ∧
    ∀ nbytes offers p heap, Request nbytes →
      malloc base nbytes { u.heap with offers } = some (p, heap) → p ≠ 0 →
      ∃ free block, block.lo + 8 = p ∧ WellFormed base ⟨heap, ⟨block, nbytes⟩ :: u.held⟩ free := by
  have hinv : Inv base u := by
    refine h.invariant_last (I := Inv base) (fun s l t hs hstep => ?_) (.inl hs)
    obtain ⟨t', ht', hinv⟩ := hs.step hpos hbase (allowed_of_step hstep)
    exact Option.some.inj (ht'.symm.trans hstep) ▸ hinv
  refine ⟨?_, fun l hl => ?_, fun nbytes offers p heap hreq hmalloc hp => ?_⟩
  · rcases hinv with hinit | ⟨⟨free, hg⟩, howns⟩
    · exact .inl hinit
    · exact .inr ⟨free, hg.wellFormed howns⟩
  · obtain ⟨t, ht, -⟩ := hinv.step hpos hbase hl
    exact ⟨t, ht⟩
  · obtain ⟨hlist, howns⟩ := inv_iff.mp hinv
    obtain ⟨r, _, hr, hanswer⟩ := malloc_good hpos hbase hlist hreq offers
    obtain rfl : r = (p, heap) := Option.some.inj (hr.symm.trans hmalloc)
    obtain ⟨free, b, hb, hhi, hg⟩ := hanswer.made_or.resolve_right fun hnull => hp hnull.1
    refine ⟨free, b, hb.symm, Good.wellFormed hg (List.forall_mem_cons.mpr ⟨?_, howns⟩)⟩
    have hroom := units_ge nbytes
    show b.lo + 8 + nbytes ≤ b.hi
    omega

end Runs

/-- Two requests, memory for one of them only, and the first block given back. -/
def twoRequests : List Label :=
  [.malloc 10 [8192], .store 40950 7, .malloc 40000 [100], .malloc 5 [], .free 40944]

/-- No memory yet. -/
def emptyHeap : State := ⟨⟨zeroBuf (2 ^ 32), 0, [], []⟩, []⟩

theorem heap_wellFormed_twoRequests :
    ∃ tr u, Run (step 4096) emptyHeap tr u ∧ tr.map Prod.snd = twoRequests ∧
      ∃ free, WellFormed 4096 u free := by
  obtain ⟨u, hu⟩ : ∃ u, exec (step 4096) twoRequests emptyHeap = some u :=
    Option.isSome_iff_exists.mp (by decide +kernel)
  obtain ⟨tr, hrun, hlabels⟩ := run_of_exec hu
  obtain ⟨hform, -, -⟩ := heap_wellFormed (by decide) (by decide) ⟨rfl, rfl, rfl⟩ hrun
  refine ⟨tr, u, hrun, hlabels, hform.resolve_left fun hinit => ?_⟩
  have hfreep : (exec (step 4096) twoRequests emptyHeap).map (fun u => u.held.length) = some 1 := by
    decide +kernel
  rw [hu, Option.map_some, hinit.2.2] at hfreep
  exact absurd hfreep (by decide)

end Xv6Arm.Umalloc
