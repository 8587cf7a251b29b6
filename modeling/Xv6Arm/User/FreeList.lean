import Xv6Arm.User.Umalloc

/-!
# The free list

The free blocks, in the order of their addresses, behind the empty block at
`base`.  `Good` relates a heap to its free and its allocated blocks: the links run
through the free blocks in a circle, the headers have the sizes of the blocks, and
the blocks tile the memory that `sbrk` has given.

`free` puts a block into its place in that order and glues it to its neighbours.
`malloc` takes a block, or the end of one.
-/

namespace Xv6Arm.Umalloc

open Bytes Circles Segments

/-- The block at `base`. -/
def root (base : Nat) : Seg Nat := ⟨base, base⟩

/-- The header of a block has its size. -/
def Sized (h : Heap) (s : Seg Nat) : Prop := s.hi = s.lo + 8 * h.size s.lo

/-- The heap with its free blocks and its allocated blocks. -/
structure Good (base : Nat) (h : Heap) (free held : List (Seg Nat)) : Prop where
  circle : Circle h.ptr ((root base :: free).map Seg.lo)
  freep : h.freep ∈ (root base :: free).map Seg.lo
  sized : ∀ s ∈ root base :: free ++ held, Sized h s
  spaced : Spaced (root base :: free)
  given : ∀ r ∈ h.given, base + 8 ≤ r.lo ∧ r.hi < 2 ^ 32
  tiles : Tiles (free ++ held) (cover h.given)

section Good

variable {base : Nat} {h h' : Heap} {free held held' : List (Seg Nat)} {s : Seg Nat}

theorem Sized.congr (hs : Sized h s) (hsame : Same h h' s.lo) : Sized h' s := by
  unfold Sized
  rw [hsame.2]
  exact hs

/-- Blocks lie in memory, above `base`. -/
theorem Good.bounds (hg : Good base h free held) (hs : s ∈ free ++ held) :
    base + 8 ≤ s.lo ∧ s.lo + 8 ≤ s.hi ∧ s.hi < 2 ^ 32 := by
  have hproper := hg.tiles.proper s hs
  have hcover : ∀ x, s.lo ≤ x → x < s.hi → base + 8 ≤ x ∧ x + 1 < 2 ^ 32 := by
    intro x hlo hhi
    obtain ⟨r, hr, hrlo, hrhi⟩ : x ∈ cover h.given := hg.tiles.cover ▸ ⟨s, hs, hlo, hhi⟩
    have hbound := hg.given r hr
    omega
  have hsize : s.hi = s.lo + 8 * h.size s.lo := hg.sized s (List.mem_cons_of_mem _ hs)
  have hlow := hcover s.lo le_rfl hproper
  have hhigh := hcover (s.hi - 1) (by omega) (by omega)
  omega

/-- Every header is in memory, the one at `base` included. -/
theorem Good.header_le (hg : Good base h free held) (hbase : base + 8 ≤ 2 ^ 32)
    (hs : s ∈ root base :: (free ++ held)) : s.lo + 8 ≤ 2 ^ 32 ∧ s.hi ≤ 2 ^ 32 := by
  rcases List.mem_cons.mp hs with rfl | hs
  · exact ⟨hbase, by show base ≤ 2 ^ 32; omega⟩
  · have hb := hg.bounds hs
    omega

/-- The headers of the blocks do not overlap. -/
theorem Good.clear (hg : Good base h free held) :
    (root base :: (free ++ held)).Pairwise fun s t => Clear s.lo t.lo := by
  refine List.pairwise_cons.mpr ⟨fun t ht => .inl (hg.bounds ht).1, ?_⟩
  refine hg.tiles.off.imp_of_mem fun {s t} hs ht hoff => ?_
  have hbs := hg.bounds hs
  have hbt := hg.bounds ht
  exact hoff.imp (fun hle => by omega) fun hle => by omega

/-- The allocated blocks in another order. -/
theorem Good.perm (hg : Good base h free held) (hp : held.Perm held') :
    Good base h free held' where
  circle := hg.circle
  freep := hg.freep
  sized s hs := hg.sized s (((hp.append_left (root base :: free)).mem_iff).mpr hs)
  spaced := hg.spaced
  given := hg.given
  tiles := hg.tiles.perm (hp.append_left free)

/-- A heap with the same headers. -/
theorem Good.congr (hg : Good base h free held)
    (hsame : ∀ s ∈ root base :: free ++ held, Same h h' s.lo) (hfreep : h'.freep = h.freep)
    (hgiven : h'.given = h.given) : Good base h' free held where
  circle := hg.circle.congr fun p hp => by
    obtain ⟨s, hs, rfl⟩ := List.mem_map.mp hp
    exact (hsame s (List.mem_append_left held hs)).1
  freep := hfreep ▸ hg.freep
  sized s hs := (hg.sized s hs).congr (hsame s hs)
  spaced := hg.spaced
  given := hgiven ▸ hg.given
  tiles := hgiven ▸ hg.tiles

/-- The addresses in the list go upwards. -/
theorem Good.increasing (hg : Good base h free held) :
    ((root base :: free).map Seg.lo).Pairwise (· < ·) := by
  refine List.pairwise_map.mpr (hg.spaced.imp_of_mem fun {s t} hs _ hgap => ?_)
  have hsize : s.hi = s.lo + 8 * h.size s.lo := hg.sized s (List.mem_append_left held hs)
  omega

theorem Good.addr_lt (hg : Good base h free held) (hbase : base + 8 ≤ 2 ^ 32) {p : Nat}
    (hp : p ∈ (root base :: free).map Seg.lo) : p + 8 ≤ 2 ^ 32 := by
  obtain ⟨s, hs, rfl⟩ := List.mem_map.mp hp
  exact (hg.header_le hbase (List.mem_append_left held hs)).1

/-- There are not more free blocks than addresses. -/
theorem Good.length_le (hg : Good base h free held) (hbase : base + 8 ≤ 2 ^ 32) :
    ((root base :: free).map Seg.lo).length ≤ 2 ^ 32 := by
  have hnodup : ((root base :: free).map Seg.lo).Nodup := hg.increasing.imp Nat.ne_of_lt
  have hsub : (root base :: free).map Seg.lo ⊆ List.range (2 ^ 32) := fun p hp =>
    List.mem_range.mpr (by have := hg.addr_lt hbase hp; omega)
  have hlen := (List.subperm_of_subset hnodup hsub).length_le
  rwa [List.length_range] at hlen

end Good

/-! ## The place of a block -/

/-- The search ends at the last address below `bp`. -/
theorem findPlace_eq {h : Heap} {pre post : List Nat} {t bp : Nat}
    (hc : Circle h.ptr (pre ++ t :: post)) (hlt : (pre ++ t :: post).Pairwise (· < ·))
    (hlen : (pre ++ t :: post).length ≤ 2 ^ 32) (hfreep : h.freep ∈ pre ++ t :: post)
    (ht : t < bp) (hpost : ∀ p ∈ post, bp < p) : findPlace h bp = some t := by
  obtain ⟨hltpre, hltrest, hcross⟩ := List.pairwise_append.mp hlt
  obtain ⟨htpost, hltpost⟩ := List.pairwise_cons.mp hltrest
  have hpath : Path h.ptr (pre ++ t :: post) (first pre t) := by
    have hall := (circle_iff_path (e := t) (by simp)).mp hc
    rwa [first_append] at hall
  obtain ⟨hpre, hnext, hback⟩ := path_append.mp hpath
  replace hpre : Path h.ptr pre t := hpre
  have hfirst : first pre t ≤ t := by
    cases pre with
    | nil => exact le_rfl
    | cons a pre => exact (hcross a List.mem_cons_self t List.mem_cons_self).le
  -- Below the place a link leads to an address below `bp`, and above it up or to the start.
  have hstop : ∀ p ∈ pre, decide ((bp > p ∧ bp < h.ptr p) ∨
      (p ≥ h.ptr p ∧ (bp > p ∨ bp < h.ptr p))) = false := by
    intro p hp
    have hpt : p < t := hcross p hp t List.mem_cons_self
    have hle : h.ptr p ≤ t := by
      rcases hpre.next_mem p hp with hmem | heq
      · exact (hcross _ hmem t List.mem_cons_self).le
      · exact heq.le
    have hup : p < h.ptr p := (hpre.lt_next hltpre p hp).elim id fun heq => heq ▸ hpt
    exact decide_eq_false (by omega)
  have hstop' : ∀ p ∈ post, decide ((bp > p ∧ bp < h.ptr p) ∨
      (p ≥ h.ptr p ∧ (bp > p ∨ bp < h.ptr p))) = false := by
    intro p hp
    have hbp := hpost p hp
    rcases hback.lt_next hltpost p hp with hup | heq
    · exact decide_eq_false (by omega)
    · exact decide_eq_false (by omega)
  have hend : decide ((bp > t ∧ bp < h.ptr t) ∨ (t ≥ h.ptr t ∧ (bp > t ∨ bp < h.ptr t))) =
      true := by
    refine decide_eq_true ?_
    rw [hnext]
    cases post with
    | nil => exact .inr ⟨hfirst, .inl ht⟩
    | cons p post => exact .inl ⟨ht, hpost p List.mem_cons_self⟩
  simp only [List.length_append, List.length_cons] at hlen
  rcases List.mem_append.mp hfreep with hmem | hmem
  · obtain ⟨u, v, rfl⟩ := List.append_of_mem hmem
    have hrest : Path h.ptr (h.freep :: v) t := (path_append.mp hpre).2
    simp only [List.length_append, List.length_cons] at hlen
    exact walk_eq_some hrest (fun p hp => hstop p (List.mem_append_right u hp)) hend
      (by simp only [List.length_cons]; omega)
  rcases List.mem_cons.mp hmem with heq | hmem
  · have hhere : Path h.ptr [] t := trivial
    unfold findPlace
    rw [heq]
    exact walk_eq_some hhere (fun p hp => absurd hp List.not_mem_nil) hend (by decide)
  · -- The search goes to the end of the list and on from its start.
    obtain ⟨u, v, rfl⟩ := List.append_of_mem hmem
    have hrest : Path h.ptr (h.freep :: v) (first pre t) := (path_append.mp hback).2
    have hround : Path h.ptr (h.freep :: v ++ pre) t := path_append.mpr ⟨hrest, hpre⟩
    simp only [List.length_append, List.length_cons] at hlen
    refine walk_eq_some hround (fun p hp => ?_) hend
      (by simp only [List.length_append, List.length_cons]; omega)
    rcases List.mem_append.mp hp with hp | hp
    · exact hstop' p (List.mem_append_right u hp)
    · exact hstop p hp

/-! ## Joining blocks -/

/-- Both tests of `free`: block `a` is joined with the block at `c`, or linked to it. -/
def join (h : Heap) (a c : Nat) : Heap :=
  if unitsPast a (h.size a) = c then
    let h := h.setSize a (h.size a + h.size c)
    h.setPtr a (h.ptr c)
  else h.setPtr a c

theorem joinLower_eq (h : Heap) (bp p : Nat) : joinLower h bp p = join h p bp := rfl

theorem joinUpper_eq {h : Heap} {bp p : Nat} (hp : p + 8 ≤ 2 ^ 32) (hclear : Clear bp p) :
    joinUpper h bp p = join h bp (h.ptr p) := by
  unfold joinUpper join
  split
  · have hsame : Same h (h.setSize bp (h.size bp + h.size (h.ptr p))) p := same_setSize hp hclear
    simp only [hsame.1]
  · rfl

section Join

variable {h : Heap} {a : Seg Nat} {w : List (Seg Nat)} {e : Nat}

/-- Only the header of the block changes. -/
theorem same_join {p c q : Nat} (hq : q + 8 ≤ 2 ^ 32) (hclear : Clear p q) :
    Same h (join h p c) q := by
  unfold join
  split
  · exact (same_setSize hq hclear).trans (same_setPtr hq hclear)
  · exact same_setPtr hq hclear

theorem given_join {p c : Nat} : (join h p c).given = h.given := by
  unfold join
  split <;> rfl

/-- A block in front of linked blocks is glued to them. -/
theorem join_glue (ha : Sized h a) (hw : ∀ c ∈ w, Sized h c) (hpath : Path h.ptr (w.map Seg.lo) e)
    (hmem : a.lo + 8 ≤ 2 ^ 32) (hbelow : ∀ c ∈ w, a.hi ≤ c.lo)
    (hclear : ∀ c ∈ w, Clear a.lo c.lo) (hbound : ∀ c ∈ w, c.lo + 8 ≤ 2 ^ 32 ∧ c.hi ≤ 2 ^ 32)
    (he : e < 2 ^ 32) (hlast : w = [] → a.hi % 2 ^ 32 ≠ e) :
    Path (join h a.lo (first (w.map Seg.lo) e)).ptr ((glue a w).map Seg.lo) e ∧
      ∀ c ∈ glue a w, Sized (join h a.lo (first (w.map Seg.lo) e)) c := by
  have hsize : a.hi = a.lo + 8 * h.size a.lo := ha
  have hpast : unitsPast a.lo (h.size a.lo) = a.hi % 2 ^ 32 := by rw [hsize, unitsPast]
  cases w with
  | nil =>
    have hjoin : join h a.lo e = h.setPtr a.lo e := by
      unfold join
      rw [if_neg (by rw [hpast]; exact hlast rfl)]
    show Path (join h a.lo e).ptr [a.lo] e ∧ _
    rw [List.map_nil, first, hjoin]
    refine ⟨⟨ptr_setPtr hmem he, trivial⟩, fun c hc => ?_⟩
    obtain rfl := List.mem_singleton.mp hc
    unfold Sized
    rw [size_setPtr_self hmem]
    exact ha
  | cons c w =>
    obtain ⟨hc, hw⟩ := List.forall_mem_cons.mp hw
    obtain ⟨hclearc, hclear⟩ := List.forall_mem_cons.mp hclear
    obtain ⟨hboundc, hbound⟩ := List.forall_mem_cons.mp hbound
    obtain ⟨hlink, hpath⟩ : h.ptr c.lo = first (w.map Seg.lo) e ∧ Path h.ptr (w.map Seg.lo) e :=
      hpath
    have hbelowc := hbelow c List.mem_cons_self
    have hsame : ∀ t ∈ w, Same h (join h a.lo c.lo) t.lo := fun t ht =>
      same_join (hbound t ht).1 (hclear t ht)
    have htail : Path (join h a.lo c.lo).ptr (w.map Seg.lo) e := hpath.congr fun p hp => by
      obtain ⟨t, ht, rfl⟩ := List.mem_map.mp hp
      exact (hsame t ht).1
    have htailSized : ∀ t ∈ w, Sized (join h a.lo c.lo) t := fun t ht => (hw t ht).congr (hsame t ht)
    rw [Nat.mod_eq_of_lt (by omega)] at hpast
    show Path (join h a.lo c.lo).ptr _ e ∧ ∀ t ∈ _, Sized (join h a.lo c.lo) t
    rcases eq_or_ne a.hi c.lo with htouch | hgap
    · have hjoin : join h a.lo c.lo = ((h.setSize a.lo (h.size a.lo + h.size c.lo)).setPtr a.lo
          (h.ptr c.lo)) := by
        unfold join
        rw [if_pos (hpast.trans htouch)]
        have hsame : Same h (h.setSize a.lo (h.size a.lo + h.size c.lo)) c.lo :=
          same_setSize hboundc.1 hclearc
        simp only [hsame.1]
      have hcsize : c.hi = c.lo + 8 * h.size c.lo := hc
      rw [glue_touch htouch]
      refine ⟨⟨?_, htail⟩, List.forall_mem_cons.mpr ⟨?_, htailSized⟩⟩
      · rw [hjoin, ptr_setPtr hmem (ptr_lt ..)]
        exact hlink
      · show c.hi = a.lo + 8 * (join h a.lo c.lo).size a.lo
        rw [hjoin, size_setPtr_self hmem, size_setSize hmem (by omega)]
        omega
    · have hjoin : join h a.lo c.lo = h.setPtr a.lo c.lo := by
        unfold join
        rw [if_neg (fun heq => hgap (hpast.symm.trans heq))]
      have hsamec : Same h (join h a.lo c.lo) c.lo := same_join hboundc.1 hclearc
      rw [glue_gap hgap]
      refine ⟨⟨?_, hsamec.1.trans hlink, htail⟩, ?_⟩
      · rw [hjoin]
        exact ptr_setPtr hmem (by omega)
      · rw [List.forall_mem_cons, List.forall_mem_cons]
        refine ⟨?_, hc.congr hsamec, htailSized⟩
        unfold Sized
        rw [hjoin, size_setPtr_self hmem]
        exact ha

/-- Both joins of `free`: `b` with what is above it, and `t` with the result. -/
theorem join_twice {t b : Seg Nat} (hsized : ∀ s ∈ t :: b :: w, Sized h s)
    (hbound : ∀ s ∈ t :: b :: w, s.lo + 8 ≤ 2 ^ 32 ∧ s.hi ≤ 2 ^ 32)
    (hclear : (t :: b :: w).Pairwise fun s t => Clear s.lo t.lo) (ht : t.hi ≤ b.lo)
    (hb : ∀ c ∈ w, b.hi ≤ c.lo) (htw : ∀ c ∈ w, t.hi ≤ c.lo)
    (hpath : Path h.ptr (w.map Seg.lo) e) (he : e < 2 ^ 32) (hlast : w = [] → b.hi % 2 ^ 32 ≠ e) :
    Path (join (join h b.lo (first (w.map Seg.lo) e)) t.lo b.lo).ptr
        ((glue t (glue b w)).map Seg.lo) e ∧
      ∀ c ∈ glue t (glue b w), Sized (join (join h b.lo (first (w.map Seg.lo) e)) t.lo b.lo) c := by
  obtain ⟨hsizedt, hsized⟩ := List.forall_mem_cons.mp hsized
  obtain ⟨hsizedb, hsizedw⟩ := List.forall_mem_cons.mp hsized
  obtain ⟨hboundt, hbound⟩ := List.forall_mem_cons.mp hbound
  obtain ⟨hboundb, hboundw⟩ := List.forall_mem_cons.mp hbound
  obtain ⟨hcleart, hclear⟩ := List.pairwise_cons.mp hclear
  obtain ⟨hcleartb, hcleartw⟩ := List.forall_mem_cons.mp hcleart
  have hclearb := (List.pairwise_cons.mp hclear).1
  obtain ⟨hpath₁, hsized₁⟩ :=
    join_glue hsizedb hsizedw hpath hboundb.1 hb hclearb hboundw he hlast
  obtain ⟨hi, w', hglue, hw', hhi⟩ := glue_eq_cons b w
  have hsizedt' := hsizedt.congr (same_join (h := h) (c := first (w.map Seg.lo) e) hboundt.1
    hcleartb.symm)
  have hjoin := join_glue hsizedt' hsized₁ hpath₁ hboundt.1
  rw [hglue] at hjoin ⊢
  refine hjoin (List.forall_mem_cons.mpr ⟨ht, fun c hc => htw c (hw' c hc)⟩)
    (List.forall_mem_cons.mpr ⟨hcleartb, fun c hc => hcleartw c (hw' c hc)⟩)
    (List.forall_mem_cons.mpr ⟨⟨hboundb.1, ?_⟩, fun c hc => hboundw c (hw' c hc)⟩) he
    (fun hnil => nomatch hnil)
  rcases hhi with rfl | ⟨c, hc, rfl⟩
  · exact hboundb.2
  · exact (hboundw c hc).2

end Join

/-! ## free -/

section Free

variable {base : Nat} {h : Heap} {free held : List (Seg Nat)} {b : Seg Nat}

/-- The list at the place of a block: what is below it and what is above it. -/
theorem Good.exists_place (hg : Good base h free (b :: held)) :
    ∃ pre t post, root base :: free = pre ++ t :: post ∧ t.hi ≤ b.lo ∧
      (∀ s ∈ post, b.hi ≤ s.lo) := by
  have hb := hg.bounds (List.mem_append_right free List.mem_cons_self)
  have hlt := List.pairwise_map.mp hg.increasing
  obtain ⟨u, post, hl, hu, hpost⟩ := exists_split Seg.lo b.lo hlt
  -- A free block lies off the block.
  have hoff : ∀ s ∈ free, s.Off b := fun s hs =>
    (List.pairwise_append.mp hg.tiles.off).2.2 s hs b List.mem_cons_self
  have hcases : ∀ s ∈ root base :: free, s.hi ≤ b.lo ∨ b.hi ≤ s.lo := by
    intro s hs
    rcases List.mem_cons.mp hs with rfl | hs
    · exact .inl (by show base ≤ b.lo; omega)
    · exact hoff s hs
  have hhead : u ≠ [] := by
    rintro rfl
    have hmem : root base ∈ post := by
      rw [← List.nil_append post, ← hl]
      exact List.mem_cons_self
    have hroot : b.lo ≤ base := hpost (root base) hmem
    omega
  obtain ⟨pre, t, rfl⟩ : ∃ pre t, u = pre ++ [t] :=
    ⟨u.dropLast, u.getLast hhead, (List.dropLast_append_getLast hhead).symm⟩
  refine ⟨pre, t, post, by rw [hl, List.append_assoc]; rfl, ?_, fun s hs => ?_⟩
  · have ht := hu t (by simp)
    rcases hcases t (by rw [hl]; simp) with hle | hle
    · exact hle
    · omega
  · have hs' := hpost s hs
    rcases hcases s (by rw [hl]; exact List.mem_append_right _ hs) with hle | hle
    · have hproper := hg.tiles.proper s
      rcases List.mem_cons.mp (hl ▸ List.mem_append_right _ hs) with rfl | hmem
      · have hroot : b.lo ≤ base := hs'
        omega
      · have hlow := hproper (List.mem_append_left _ hmem)
        omega
    · exact hle

/-- The list with the block glued in: it tiles what the list and the block did. -/
theorem Good.exists_glued (hg : Good base h free (b :: held)) {pre post : List (Seg Nat)}
    {t : Seg Nat} (hl : root base :: free = pre ++ t :: post) :
    ∃ free', pre ++ glue t (glue b post) = root base :: free' ∧
      Tiles (free' ++ held) (cover h.given) := by
  have hb := hg.bounds (List.mem_append_right free List.mem_cons_self)
  have htiles := hg.tiles
  cases pre with
  | nil =>
    obtain ⟨rfl, rfl⟩ := List.cons.inj hl
    refine ⟨glue b free, ?_, (htiles.perm (List.perm_middle ..)).glue⟩
    obtain ⟨hi, w, hglue, -, -⟩ := glue_eq_cons b free
    rw [List.nil_append, hglue]
    exact glue_gap (by show base ≠ b.lo; omega)
  | cons r pre =>
    obtain ⟨rfl, rfl⟩ := List.cons.inj hl
    refine ⟨pre ++ glue t (glue b post), rfl, ?_⟩
    have hupper : (pre ++ t :: post ++ b :: held).Perm (b :: post ++ (t :: pre ++ held)) := by
      refine List.perm_iff_count.mpr fun s => ?_
      simp only [List.count_append, List.count_cons]
      omega
    have hlower : (glue b post ++ (t :: pre ++ held)).Perm (t :: glue b post ++ (pre ++ held)) :=
      List.perm_middle ..
    refine (((htiles.perm hupper).glue.perm hlower).glue).perm ?_
    rw [← List.append_assoc]
    exact List.Perm.append_right held (List.perm_append_comm ..)

/-- The blocks, with the place `t` of the block `b` first: their headers are apart, in memory
and have the right sizes. -/
theorem Good.placed (hg : Good base h free (b :: held)) (hbase : base + 8 ≤ 2 ^ 32)
    {pre post : List (Seg Nat)} {t : Seg Nat} (hl : root base :: free = pre ++ t :: post) :
    (t :: b :: (post ++ (pre ++ held))).Pairwise (fun s t => Clear s.lo t.lo) ∧
      ∀ s ∈ t :: b :: (post ++ (pre ++ held)),
        Sized h s ∧ s.lo + 8 ≤ 2 ^ 32 ∧ s.hi ≤ 2 ^ 32 := by
  have hperm : (root base :: (free ++ b :: held)).Perm (t :: b :: (post ++ (pre ++ held))) := by
    rw [← List.cons_append, hl]
    refine List.perm_iff_count.mpr fun s => ?_
    simp only [List.count_append, List.count_cons]
    omega
  refine ⟨(hperm.pairwise_iff fun {s t} hc => hc.symm).mp hg.clear, fun s hs => ?_⟩
  have hs := hperm.mem_iff.mpr hs
  exact ⟨hg.sized s hs, hg.header_le hbase hs⟩

/-- `free` finds the place of a block in the list. -/
theorem Good.findPlace (hg : Good base h free (b :: held)) (hbase : base + 8 ≤ 2 ^ 32)
    {pre post : List (Seg Nat)} {t : Seg Nat} (hl : root base :: free = pre ++ t :: post)
    (htb : t.lo < b.lo) (hpost : ∀ s ∈ post, b.lo < s.lo) :
    findPlace h b.lo = some t.lo := by
  have hmap : (root base :: free).map Seg.lo = pre.map Seg.lo ++ t.lo :: post.map Seg.lo := by
    rw [hl, List.map_append, List.map_cons]
  refine findPlace_eq (hmap ▸ hg.circle) (hmap ▸ hg.increasing) (hmap ▸ hg.length_le hbase)
    (hmap ▸ hg.freep) htb fun p hp => ?_
  obtain ⟨s, hs, rfl⟩ := List.mem_map.mp hp
  exact hpost s hs

/-- `free` gives a block back: the list is a circle again, in order and with gaps, and the block
is part of a free one. -/
theorem free_good (hpos : 0 < base) (hbase : base + 8 ≤ 2 ^ 32)
    (hg : Good base h free (b :: held)) :
    ∃ h' free', Umalloc.free h (b.lo + 8) = some h' ∧ Good base h' free' held ∧
      (∃ c ∈ free', c.lo ≤ b.lo ∧ b.hi ≤ c.hi) ∧ h'.given = h.given := by
  obtain ⟨pre, t, post, hl, ht, hpost⟩ := hg.exists_place
  obtain ⟨free', hl', htiles⟩ := hg.exists_glued hl
  have hb := hg.bounds (List.mem_append_right free List.mem_cons_self)
  obtain ⟨hclear, hblocks⟩ := hg.placed hbase hl
  obtain ⟨hcleart, hclear'⟩ := List.pairwise_cons.mp hclear
  have hclearb := (List.pairwise_cons.mp hclear').1
  have hspaced : Spaced (pre ++ t :: post) := hl ▸ hg.spaced
  have hsub : (t :: b :: post).Sublist (t :: b :: (post ++ (pre ++ held))) :=
    (List.prefix_append (t :: b :: post) (pre ++ held)).sublist
  have hproper : ∀ s ∈ t :: b :: post, s.lo ≤ s.hi := fun s hs => by
    have hs : s.hi = s.lo + 8 * h.size s.lo := (hblocks s (hsub.subset hs)).1
    omega
  have htb : Clear t.lo b.lo := hcleart b List.mem_cons_self
  -- The place.
  have hplace : Umalloc.findPlace h b.lo = some t.lo := by
    refine hg.findPlace hbase hl ?_ fun s hs => ?_
    · have hle := hproper t List.mem_cons_self
      unfold Clear at htb
      omega
    · have hle := hpost s hs
      omega
  have hpath : Path h.ptr ((pre ++ t :: post).map Seg.lo) base := hl ▸ hg.circle
  rw [List.map_append] at hpath
  obtain ⟨hpathpre, hlink, hpathpost⟩ := path_append.mp hpath
  -- The block is glued to its neighbours.
  obtain ⟨h₂, hh₂⟩ : ∃ h₂, h₂ = join (join h b.lo (first (post.map Seg.lo) base)) t.lo b.lo :=
    ⟨_, rfl⟩
  have hjoin : joinLower (joinUpper h b.lo t.lo) b.lo t.lo = h₂ := by
    rw [joinUpper_eq (hblocks t List.mem_cons_self).2.1 htb.symm, hlink, joinLower_eq, hh₂]
  obtain ⟨hpath₂, hsized₂⟩ := join_twice (fun s hs => (hblocks s (hsub.subset hs)).1)
    (fun s hs => (hblocks s (hsub.subset hs)).2) (hclear.sublist hsub) ht hpost
    (fun c hc => ((List.pairwise_cons.mp (List.pairwise_append.mp hspaced).2.1).1 c hc).le)
    hpathpost (by omega) (fun _ => by omega)
  rw [← hh₂] at hpath₂ hsized₂
  -- Everything else is as it was.
  have hsame : ∀ s ∈ pre ++ held, Same h h₂ s.lo := by
    intro s hs
    have hmem : s ∈ b :: (post ++ (pre ++ held)) :=
      List.mem_cons_of_mem b (List.mem_append_right post hs)
    have hle := (hblocks s (List.mem_cons_of_mem t hmem)).2.1
    rw [hh₂]
    exact (same_join hle (hclearb s (List.mem_append_right post hs))).trans
      (same_join hle (hcleart s hmem))
  have hgiven : h₂.given = h.given := by rw [hh₂, given_join, given_join]
  obtain ⟨hi, w, hglue, -, -⟩ := glue_eq_cons t (glue b post)
  refine ⟨{ h₂ with freep := t.lo }, free', ?_, ⟨?_, ?_, ?_, ?_, ?_, ?_⟩, ?_, hgiven⟩
  · have hbp : (b.lo + 8 + (2 ^ 32 - 8)) % 2 ^ 32 = b.lo := by omega
    simp only [Umalloc.free, hbp, hplace]
    show some { joinLower (joinUpper h b.lo t.lo) b.lo t.lo with freep := t.lo } = _
    rw [hjoin]
  · show Path h₂.ptr ((root base :: free').map Seg.lo) base
    rw [← hl', List.map_append]
    refine path_append.mpr ⟨?_, hpath₂⟩
    rw [hglue]
    refine hpathpre.congr fun p hp => ?_
    obtain ⟨s, hs, rfl⟩ := List.mem_map.mp hp
    exact (hsame s (List.mem_append_left held hs)).1
  · rw [← hl', List.map_append, hglue]
    exact List.mem_append_right _ List.mem_cons_self
  · rw [← hl']
    intro s hs
    show Sized h₂ s
    by_cases hold : s ∈ pre ++ held
    · have hmem : s ∈ t :: b :: (post ++ (pre ++ held)) := by simp [List.mem_append.mp hold]
      exact (hblocks s hmem).1.congr (hsame s hold)
    · refine hsized₂ s ?_
      grind
  · rw [← hl']
    exact hspaced.insert hproper ht hpost
  · exact hgiven ▸ hg.given
  · exact hgiven ▸ htiles
  · -- The glued block is not the one at `base`.
    obtain ⟨c, hc, hclo, hchi⟩ := exists_mem_insert hproper hpost
    have hmem : c ∈ root base :: free' := hl' ▸ List.mem_append_right pre hc
    rcases List.mem_cons.mp hmem with rfl | hmem
    · have hroot : b.hi ≤ base := hchi
      omega
    · exact ⟨c, hmem, hclo, hchi⟩

end Free

end Xv6Arm.Umalloc
