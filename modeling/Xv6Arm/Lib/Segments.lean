import Mathlib.Data.List.Pairwise
import Mathlib.Data.List.Perm.Basic
import Mathlib.Data.Set.Lattice
import Mathlib.Order.Lattice

/-!
# Segments of a line

A segment is what lies from `lo` up to, but not including, `hi`.  A list of
segments *tiles* a set if the segments are not empty, lie off each other and make
up the set.  Tilings do not depend on the order of the list.  A segment may be cut
in two (`Tiles.cut`) and two segments that touch may be made one (`Tiles.join`).

A list of segments is `Spaced` if it goes upwards and leaves a gap after each
segment.  `glue` puts a segment in front of a spaced list and joins it with the
first one if the two touch.  The list is spaced again and tiles the same set.
-/

namespace Segments

/-- The points from `lo` up to `hi`. -/
structure Seg (α : Type*) where
  lo : α
  hi : α
deriving DecidableEq, Repr

variable {α : Type*} [LinearOrder α] {a b s t : Seg α} {l l' w rest : List (Seg α)} {X : Set α}

/-- One of the segments ends before the other starts. -/
def Seg.Off (s t : Seg α) : Prop := s.hi ≤ t.lo ∨ t.hi ≤ s.lo

instance (s t : Seg α) : Decidable (s.Off t) := inferInstanceAs (Decidable (_ ∨ _))

theorem Seg.Off.symm (h : s.Off t) : t.Off s := Or.symm h

instance : Std.Symm (Seg.Off : Seg α → Seg α → Prop) := ⟨fun _ _ h => h.symm⟩

/-- The points of a list of segments. -/
def cover (l : List (Seg α)) : Set α := {x | ∃ s ∈ l, s.lo ≤ x ∧ x < s.hi}

theorem cover_cons : cover (s :: l) = {x | s.lo ≤ x ∧ x < s.hi} ∪ cover l := by
  ext x
  simp only [cover, List.mem_cons, exists_eq_or_imp, Set.mem_ofPred_eq, Set.mem_union]

/-- Segments that are not empty and have no point in common. -/
theorem off_of_disjoint (hs : s.lo < s.hi) (ht : t.lo < t.hi)
    (h : ∀ x, s.lo ≤ x → x < s.hi → t.lo ≤ x → ¬ x < t.hi) : s.Off t := by
  by_contra hoff
  rw [Seg.Off, not_or, not_le, not_le] at hoff
  exact h (max s.lo t.lo) (le_max_left ..) (max_lt hs hoff.1) (le_max_right ..)
    (max_lt hoff.2 ht)

/-- The segments are not empty, lie off each other and make up `X`. -/
structure Tiles (l : List (Seg α)) (X : Set α) : Prop where
  proper : ∀ s ∈ l, s.lo < s.hi
  off : l.Pairwise Seg.Off
  cover : cover l = X

theorem Tiles.nil : Tiles ([] : List (Seg α)) (Segments.cover []) :=
  ⟨fun _ hs => absurd hs List.not_mem_nil, .nil, rfl⟩

/-- The order of the segments does not matter. -/
theorem Tiles.perm (h : Tiles l X) (hp : l.Perm l') : Tiles l' X where
  proper s hs := h.proper s (hp.mem_iff.mpr hs)
  off := (hp.pairwise_iff Seg.Off.symm).mp h.off
  cover := by
    rw [← h.cover]
    ext x
    simp only [Segments.cover, hp.mem_iff]

theorem Tiles.off_of_ne (h : Tiles l X) (hs : s ∈ l) (ht : t ∈ l) (hne : s ≠ t) : s.Off t :=
  h.off.forall hs ht hne

/-- One more segment. -/
theorem Tiles.cons (h : Tiles l (Segments.cover w)) (hs : s.lo < s.hi) (hoff : ∀ t ∈ w, s.Off t) :
    Tiles (s :: l) (Segments.cover (s :: w)) where
  proper := List.forall_mem_cons.mpr ⟨hs, h.proper⟩
  off := by
    refine List.pairwise_cons.mpr ⟨fun t ht => ?_, h.off⟩
    refine off_of_disjoint hs (h.proper t ht) fun x hlo hhi htlo hthi => ?_
    obtain ⟨r, hr, hrlo, hrhi⟩ : x ∈ Segments.cover w := h.cover ▸ ⟨t, ht, htlo, hthi⟩
    rcases hoff r hr with hle | hle
    · exact absurd (hhi.trans_le hle) hrlo.not_gt
    · exact absurd (hrhi.trans_le hle) hlo.not_gt
  cover := by rw [cover_cons, cover_cons, h.cover]

theorem cover_cut {lo mid hi : α} (hlo : lo ≤ mid) (hhi : mid ≤ hi) :
    cover (⟨lo, mid⟩ :: ⟨mid, hi⟩ :: l) = cover (⟨lo, hi⟩ :: l) := by
  rw [cover_cons, cover_cons, cover_cons, ← Set.union_assoc]
  congr 1
  ext x
  simp only [Set.mem_union, Set.mem_ofPred_eq]
  constructor
  · rintro (⟨h₁, h₂⟩ | ⟨h₁, h₂⟩)
    · exact ⟨h₁, h₂.trans_le hhi⟩
    · exact ⟨hlo.trans h₁, h₂⟩
  · rintro ⟨h₁, h₂⟩
    rcases lt_or_ge x mid with hx | hx
    · exact .inl ⟨h₁, hx⟩
    · exact .inr ⟨hx, h₂⟩

/-- A segment is cut in two. -/
theorem Tiles.cut {lo mid hi : α} (h : Tiles (⟨lo, hi⟩ :: l) X) (hlo : lo < mid) (hhi : mid < hi) :
    Tiles (⟨lo, mid⟩ :: ⟨mid, hi⟩ :: l) X where
  proper := by
    rw [List.forall_mem_cons, List.forall_mem_cons]
    exact ⟨hlo, hhi, fun s hs => h.proper s (List.mem_cons_of_mem _ hs)⟩
  off := by
    obtain ⟨hoff, hrest⟩ := List.pairwise_cons.mp h.off
    refine List.pairwise_cons.mpr ⟨?_, List.pairwise_cons.mpr ⟨fun t ht => ?_, hrest⟩⟩
    · rw [List.forall_mem_cons]
      exact ⟨.inl le_rfl, fun t ht => (hoff t ht).imp_left hhi.le.trans⟩
    · exact (hoff t ht).imp_right fun hle => le_trans hle hlo.le
  cover := (cover_cut hlo.le hhi.le).trans h.cover

/-- Two segments that touch are made one. -/
theorem Tiles.join {lo mid hi : α} (h : Tiles (⟨lo, mid⟩ :: ⟨mid, hi⟩ :: l) X) :
    Tiles (⟨lo, hi⟩ :: l) X := by
  obtain ⟨hlo, hproper⟩ := List.forall_mem_cons.mp h.proper
  obtain ⟨hhi, hproper⟩ := List.forall_mem_cons.mp hproper
  obtain ⟨hfst, hoff⟩ := List.pairwise_cons.mp h.off
  obtain ⟨hsnd, hrest⟩ := List.pairwise_cons.mp hoff
  refine ⟨?_, List.pairwise_cons.mpr ⟨fun t ht => ?_, hrest⟩, ?_⟩
  · rw [List.forall_mem_cons]
    exact ⟨hlo.trans hhi, hproper⟩
  · -- A segment between the two parts would be empty.
    rcases hfst t (List.mem_cons_of_mem _ ht) with hle | hle
    · rcases hsnd t ht with hle' | hle'
      · exact .inl hle'
      · exact absurd (hle'.trans hle) (hproper t ht).not_ge
    · exact .inr hle
  · rw [← h.cover, cover_cut hlo.le hhi.le]

/-! ## Spaced lists -/

/-- The segments go upwards, with a gap after each one. -/
def Spaced (l : List (Seg α)) : Prop := l.Pairwise fun s t => s.hi < t.lo

/-- Puts a segment in front, and joins it with the first one if the two touch. -/
def glue (a : Seg α) : List (Seg α) → List (Seg α)
  | [] => [a]
  | c :: w => if a.hi = c.lo then ⟨a.lo, c.hi⟩ :: w else a :: c :: w

theorem glue_touch {c : Seg α} (h : a.hi = c.lo) : glue a (c :: w) = ⟨a.lo, c.hi⟩ :: w := if_pos h

theorem glue_gap {c : Seg α} (h : a.hi ≠ c.lo) : glue a (c :: w) = a :: c :: w := if_neg h

theorem Tiles.glue (h : Tiles (a :: w ++ rest) X) : Tiles (glue a w ++ rest) X := by
  cases w with
  | nil => exact h
  | cons c w =>
    rcases eq_or_ne a.hi c.lo with htouch | hgap
    · rw [glue_touch htouch]
      obtain ⟨lo, mid⟩ := a
      obtain ⟨mid', hi⟩ := c
      obtain rfl : mid = mid' := htouch
      exact h.join
    · rwa [glue_gap hgap]

/-- A segment that may touch the first one. -/
theorem Spaced.glue (h : Spaced w) (hw : ∀ c ∈ w, c.lo ≤ c.hi) (ha : ∀ c ∈ w, a.hi ≤ c.lo) :
    Spaced (glue a w) := by
  cases w with
  | nil => exact List.pairwise_singleton ..
  | cons c w =>
    obtain ⟨hc, hrest⟩ := List.pairwise_cons.mp h
    rcases eq_or_ne a.hi c.lo with htouch | hgap
    · rw [glue_touch htouch]
      exact List.pairwise_cons.mpr ⟨hc, hrest⟩
    · rw [glue_gap hgap]
      have hlt : a.hi < c.lo := lt_of_le_of_ne (ha c List.mem_cons_self) hgap
      refine List.pairwise_cons.mpr ⟨?_, h⟩
      rw [List.forall_mem_cons]
      exact ⟨hlt, fun t ht => hlt.trans_le ((hw c List.mem_cons_self).trans (hc t ht).le)⟩

/-- What glueing makes of a segment keeps its lower end. -/
theorem glue_eq_cons (a : Seg α) (w : List (Seg α)) :
    ∃ hi w', glue a w = ⟨a.lo, hi⟩ :: w' ∧ (∀ t ∈ w', t ∈ w) ∧
      (hi = a.hi ∨ ∃ c ∈ w, hi = c.hi) := by
  cases w with
  | nil => exact ⟨a.hi, [], rfl, fun _ ht => ht, .inl rfl⟩
  | cons c w =>
    rcases eq_or_ne a.hi c.lo with htouch | hgap
    · exact ⟨c.hi, w, glue_touch htouch, fun t ht => List.mem_cons_of_mem c ht,
        .inr ⟨c, List.mem_cons_self, rfl⟩⟩
    · exact ⟨a.hi, c :: w, glue_gap hgap, fun t ht => ht, .inl rfl⟩

/-- No segment is lost. -/
theorem exists_mem_glue (hproper : ∀ t ∈ a :: w, t.lo ≤ t.hi) (hs : s ∈ a :: w) :
    ∃ c ∈ glue a w, c.lo ≤ s.lo ∧ s.hi ≤ c.hi := by
  cases w with
  | nil => exact ⟨s, hs, le_rfl, le_rfl⟩
  | cons c w =>
    rcases eq_or_ne a.hi c.lo with htouch | hgap
    · rw [glue_touch htouch]
      have ha := hproper a List.mem_cons_self
      have hc := hproper c (List.mem_cons_of_mem a List.mem_cons_self)
      rcases List.mem_cons.mp hs with rfl | hs
      · exact ⟨_, List.mem_cons_self, le_rfl, htouch ▸ hc⟩
      rcases List.mem_cons.mp hs with rfl | hs
      · exact ⟨_, List.mem_cons_self, htouch ▸ ha, le_rfl⟩
      · exact ⟨s, List.mem_cons_of_mem _ hs, le_rfl, le_rfl⟩
    · rw [glue_gap hgap]
      exact ⟨s, hs, le_rfl, le_rfl⟩

theorem glue_proper (hproper : ∀ c ∈ a :: w, c.lo ≤ c.hi) (ha : ∀ c ∈ w, a.hi ≤ c.lo) :
    ∀ c ∈ glue a w, c.lo ≤ c.hi := by
  obtain ⟨hpropera, hproper⟩ := List.forall_mem_cons.mp hproper
  obtain ⟨hi, w', hglue, hw', hhi⟩ := glue_eq_cons a w
  rw [hglue]
  refine List.forall_mem_cons.mpr ⟨?_, fun c hc => hproper c (hw' c hc)⟩
  rcases hhi with rfl | ⟨c, hc, rfl⟩
  · exact hpropera
  · exact hpropera.trans ((ha c hc).trans (hproper c hc))

/-- A segment glued in between `t` and what comes after it. -/
theorem Spaced.insert {pre post : List (Seg α)} (h : Spaced (pre ++ t :: post))
    (hproper : ∀ c ∈ t :: b :: post, c.lo ≤ c.hi) (ht : t.hi ≤ b.lo) (hb : ∀ c ∈ post, b.hi ≤ c.lo) :
    Spaced (pre ++ Segments.glue t (Segments.glue b post)) := by
  obtain ⟨hpre, htpost, hcross⟩ := List.pairwise_append.mp h
  obtain ⟨hgap, hpost⟩ := List.pairwise_cons.mp htpost
  obtain ⟨hpropert, hproper⟩ := List.forall_mem_cons.mp hproper
  obtain ⟨hi, w, hglue, hw, -⟩ := glue_eq_cons b post
  obtain ⟨hi', w', hglue', hw', -⟩ := glue_eq_cons t (Segments.glue b post)
  have hbelow : ∀ c ∈ Segments.glue b post, t.hi ≤ c.lo := by
    rw [hglue]
    exact List.forall_mem_cons.mpr ⟨ht, fun c hc => (hgap c (hw c hc)).le⟩
  have hspaced : Spaced (Segments.glue b post) :=
    Spaced.glue hpost (fun c hc => hproper c (List.mem_cons_of_mem b hc)) hb
  refine List.pairwise_append.mpr ⟨hpre, hspaced.glue (glue_proper hproper hb) hbelow, ?_⟩
  intro s hs c hc
  have hst : s.hi < t.lo := hcross s hs t List.mem_cons_self
  rw [hglue'] at hc
  rcases List.mem_cons.mp hc with rfl | hc
  · exact hst
  · exact hst.trans_le (hpropert.trans (hbelow c (hw' c hc)))

/-- The segment that was glued in is part of a segment of the result. -/
theorem exists_mem_insert {post : List (Seg α)} (hproper : ∀ c ∈ t :: b :: post, c.lo ≤ c.hi)
    (hb : ∀ c ∈ post, b.hi ≤ c.lo) :
    ∃ c ∈ glue t (glue b post), c.lo ≤ b.lo ∧ b.hi ≤ c.hi := by
  obtain ⟨hpropert, hproper⟩ := List.forall_mem_cons.mp hproper
  obtain ⟨c, hc, hclo, hchi⟩ := exists_mem_glue hproper List.mem_cons_self
  have hall : ∀ c ∈ t :: glue b post, c.lo ≤ c.hi :=
    List.forall_mem_cons.mpr ⟨hpropert, glue_proper hproper hb⟩
  obtain ⟨d, hd, hdlo, hdhi⟩ := exists_mem_glue hall (List.mem_cons_of_mem t hc)
  exact ⟨d, hd, hdlo.trans hclo, hchi.trans hdhi⟩

/-- A list in increasing order is divided by any point. -/
theorem exists_split {β : Type*} (f : β → α) (x : α) : ∀ {l : List β},
    l.Pairwise (fun s t => f s < f t) →
      ∃ u v, l = u ++ v ∧ (∀ s ∈ u, f s < x) ∧ ∀ s ∈ v, x ≤ f s
  | [], _ => ⟨[], [], rfl, (fun _ hs => absurd hs List.not_mem_nil),
      fun _ hs => absurd hs List.not_mem_nil⟩
  | s :: l, h => by
      obtain ⟨hs, hl⟩ := List.pairwise_cons.mp h
      rcases lt_or_ge (f s) x with hlt | hge
      · obtain ⟨u, v, rfl, hu, hv⟩ := exists_split f x hl
        exact ⟨s :: u, v, rfl, List.forall_mem_cons.mpr ⟨hlt, hu⟩, hv⟩
      · refine ⟨[], s :: l, rfl, (fun _ hs => absurd hs List.not_mem_nil), ?_⟩
        exact List.forall_mem_cons.mpr ⟨hge, fun t ht => hge.trans (hs t ht).le⟩

end Segments
