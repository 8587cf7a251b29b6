import Mathlib.Data.List.GetD
import Xv6Arm.Grep.Model

/-!
# The lines that grep prints

`grep` keeps no mark behind the bytes that it has read.  The inner loop takes every `'\n'`
before a NUL of the buffer for the end of a line, also one that a read before, or the file
before, has left there.  Of the lines that were looked at, those that match still have their
`'\n'` in the buffer, and the others have a NUL in its place.  And a read after which there is
no `'\n'` in the buffer is thrown away, although the rest of its line may follow.

`Sees` says which lines `grep` makes out of the reads, and it prints those of them that match
(`Sees.loop`).  They are the lines of the input exactly if the reads are `Steady`.
-/

namespace Xv6Arm.Grep

/-! ## What grep takes for lines -/

/-- The lines at the start of a memory, up to the last `'\n'` before a NUL. -/
structure Cut (s : List Char) (ls : List (List Char)) (rest : List Char) : Prop where
  parts : s = text ls ++ rest
  clean : ∀ l ∈ ls, NUL ∉ l ∧ '\n' ∉ l
  last : strchr '\n' rest = none

/-- What the inner loop makes of lines: it puts a NUL behind those that do not match. -/
def marked (pattern : List Char) : List (List Char) → List Char
  | [] => []
  | l :: ls => l ++ (if matchText pattern l then '\n' else NUL) :: marked pattern ls

/-- The buffer after a read that has completed the lines `ls`.  The unfinished line `t` was moved to
the start, and the bytes it does not cover are still there. -/
def leftBehind (pattern : List Char) (ls : List (List Char)) (t stale : List Char) : List Char :=
  t ++ (marked pattern ls ++ t ++ stale).drop t.length

/-- A read behind the unfinished line `t` at the start of the buffer.  It completes the lines `ls`
and leaves `t'` unfinished, `stale` is what stands in the buffer behind it, and `src'` is what there
is still to read. -/
structure Reads (buf t : List Char) (src ls : List (List Char)) (t' stale : List Char)
    (src' : List (List Char)) : Prop where
  bytes : ∃ d, d ≠ [] ∧ read (BUFSIZE - t.length) src = (d, src') ∧ t ++ d = text ls ++ t'
  lines : ∀ l ∈ ls, '\n' ∉ l
  unfinished : '\n' ∉ t'
  behind : stale = buf.drop (text ls ++ t').length

/-- The lines that `grep` makes out. -/
inductive Sees (pattern : List Char) :
    List Char → List Char → List (List Char) → List (List Char) → Prop
  | eof {buf t : List Char} : Sees pattern buf t [] []
  | keep {buf t t' stale : List Char} {src src' ls seen : List (List Char)} :
      Reads buf t src ls t' stale src' → ls ≠ [] → strchr '\n' stale = none →
      Sees pattern (leftBehind pattern ls t' stale) t' src' seen →
      Sees pattern buf t src (ls ++ seen)
  /-- A read without a `'\n'` is lost, with the start of the line. -/
  | lose {buf t t' stale : List Char} {src src' seen : List (List Char)} :
      Reads buf t src [] t' stale src' → strchr '\n' stale = none →
      Sees pattern (t' ++ stale) [] src' seen → Sees pattern buf t src seen
  /-- Old bytes go on with the unfinished line.  After that only the end of the file may come, as
  the next read would write below the buffer. -/
  | stale {buf t t' u stale rest : List Char} {src ls ms : List (List Char)} :
      Reads buf t src ls t' stale [] → Cut stale (u :: ms) rest →
      Sees pattern buf t src (ls ++ (t' ++ u) :: ms)

section Memory

variable {c : Char} {s t : List Char} {k : Nat}

/-- The first of the characters, when no NUL comes before it. -/
theorem strchr_append (hnul : NUL ∉ s) (h : c ∉ s) (hc : c ≠ NUL) :
    strchr c (s ++ c :: t) = some s.length := by
  induction s with
  | nil => rw [List.nil_append, strchr, if_neg hc, if_pos rfl, List.length_nil]
  | cons a s ih =>
      obtain ⟨hne, hs⟩ := List.ne_and_not_mem_of_not_mem_cons h
      obtain ⟨hnul', hnul⟩ := List.ne_and_not_mem_of_not_mem_cons hnul
      rw [List.cons_append, strchr, if_neg (Ne.symm hnul'), if_neg (Ne.symm hne), ih hnul hs,
        Option.map_some, List.length_cons]

/-- What `strchr` has passed. -/
theorem strchr_eq_some (h : strchr c s = some k) :
    ∃ u v, s = u ++ c :: v ∧ u.length = k ∧ NUL ∉ u ∧ c ∉ u := by
  induction s generalizing k with
  | nil => cases h
  | cons a s ih =>
      rw [strchr] at h
      split at h
      · cases h
      next hnul =>
      split at h
      · next ha =>
        cases h
        exact ⟨[], s, by rw [ha]; rfl, rfl, List.not_mem_nil, List.not_mem_nil⟩
      · next ha =>
        obtain ⟨j, hj, rfl⟩ := Option.map_eq_some_iff.mp h
        obtain ⟨u, v, rfl, rfl, hu, hcu⟩ := ih hj
        exact ⟨a :: u, v, rfl, rfl, List.not_mem_cons_of_ne_of_not_mem (Ne.symm hnul) hu,
          List.not_mem_cons_of_ne_of_not_mem (Ne.symm ha) hcu⟩

/-- Behind other characters. -/
theorem strchr_skip (hnul : NUL ∉ s) (h : c ∉ s) (t : List Char) :
    strchr c (s ++ t) = (strchr c t).map (· + s.length) := by
  induction s with
  | nil => simp
  | cons a s ih =>
      obtain ⟨hne, hs⟩ := List.ne_and_not_mem_of_not_mem_cons h
      obtain ⟨hnul', hnul⟩ := List.ne_and_not_mem_of_not_mem_cons hnul
      rw [List.cons_append, strchr, if_neg (Ne.symm hnul'), if_neg (Ne.symm hne), ih hnul hs,
        Option.map_map]
      rfl

theorem not_mem_of_strchr (hnul : NUL ∉ s) (h : strchr c s = none) : c ∉ s := by
  intro hmem
  obtain ⟨u, v, rfl, hu⟩ := List.eq_append_cons_of_mem hmem
  rw [strchr_append (fun hin => hnul (List.mem_append_left _ hin)) hu ?_] at h
  · cases h
  · rintro rfl
    exact hnul hmem

theorem cstring_append (h : NUL ∉ s) : cstring (s ++ NUL :: t) = s := by
  unfold cstring
  rw [List.takeWhile_append_of_pos fun a ha => by
    simpa using fun heq : a = NUL => h (heq ▸ ha)]
  simp

/-- Bytes `w` that are moved down over `x`.  What they do not cover stays. -/
theorem memmove_down (w v : List Char) : ∀ u x : List Char, x ≠ [] →
    memmove (u ++ x ++ w ++ v) u.length (u ++ x).length w.length =
      u ++ w ++ (x ++ w).drop w.length ++ v := by
  induction w with
  | nil =>
      intro u x _
      simp [memmove]
  | cons b w ih =>
      intro u x hx
      obtain ⟨a, x, rfl⟩ := List.exists_cons_of_ne_nil hx
      have hget : (u ++ a :: x ++ b :: w ++ v).getD (u ++ a :: x).length NUL = b := by
        rw [List.append_assoc (u ++ a :: x), List.getD_append_right _ _ _ _ (Nat.le_refl _),
          Nat.sub_self]
        rfl
      have hset : (u ++ a :: x ++ b :: w ++ v).set u.length b =
          (u ++ [b]) ++ (x ++ [b]) ++ w ++ v := by
        simp
      have hsrc : (u ++ a :: x).length + 1 = (u ++ [b] ++ (x ++ [b])).length := by
        simp only [List.length_append, List.length_cons, List.length_nil]
        omega
      have hdst : u.length + 1 = (u ++ [b]).length := by
        rw [List.length_append, List.length_singleton]
      rw [List.length_cons, memmove, hget, hset, hsrc, hdst, ih (u ++ [b]) (x ++ [b]) (by simp)]
      simp

end Memory

/-! ## Reads -/

section Read

variable {n : Nat} {c d : List Char} {src src' : List (List Char)}

theorem read_flatten (h : read n src = (d, src')) : d ++ src'.flatten = src.flatten := by
  cases src with
  | nil =>
      cases h
      rfl
  | cons c src =>
      rw [read] at h
      split at h
      · cases h
        rfl
      · cases h
        rw [List.flatten_cons, ← List.append_assoc, List.take_append_drop, List.flatten_cons]

theorem read_length_le (h : read n src = (d, src')) : d.length ≤ n := by
  cases src with
  | nil =>
      cases h
      exact Nat.zero_le _
  | cons c src =>
      rw [read] at h
      split at h
      · cases h
        assumption
      · cases h
        exact List.length_take_le ..

theorem read_ne_nil (h : read n (c :: src) = (d, src')) (hn : 0 < n)
    (hsrc : ∀ x ∈ c :: src, x ≠ []) : d ≠ [] ∧ ∀ x ∈ src', x ≠ [] := by
  obtain ⟨hc, hrest⟩ := List.forall_mem_cons.mp hsrc
  rw [read] at h
  split at h
  · cases h
    exact ⟨hc, hrest⟩
  · next hlen =>
    cases h
    refine ⟨?_, List.forall_mem_cons.mpr ⟨?_, hrest⟩⟩
    · rw [← List.length_pos_iff, List.length_take]
      omega
    · rw [← List.length_pos_iff, List.length_drop]
      omega

/-- Before the end of the file a read returns something. -/
theorem eq_nil_of_read (h : read n src = ([], src')) (hn : 0 < n) (hsrc : ∀ x ∈ src, x ≠ []) :
    src = [] := by
  cases src with
  | nil => rfl
  | cons c src => exact absurd rfl (read_ne_nil h hn hsrc).1

end Read

/-! ## Texts -/

section Text

variable {v rest t : List Char} {ls : List (List Char)}

theorem text_append (ls ms : List (List Char)) : text (ls ++ ms) = text ls ++ text ms := by
  induction ls with
  | nil => rfl
  | cons l ls ih => rw [List.cons_append, text, text, ih, List.append_assoc, List.cons_append]

theorem mem_text {l : List Char} {c : Char} (hl : l ∈ ls) (hc : c ∈ l) : c ∈ text ls := by
  induction ls with
  | nil => cases hl
  | cons m ls ih =>
      rw [text, List.mem_append]
      rcases List.mem_cons.mp hl with rfl | hl
      · exact .inl hc
      · exact .inr (List.mem_cons_of_mem _ (ih hl))

theorem length_le_text (ls : List (List Char)) : ls.length ≤ (text ls).length := by
  induction ls with
  | nil => exact Nat.zero_le _
  | cons l ls ih =>
      rw [text, List.length_append, List.length_cons, List.length_cons]
      omega

/-- A text cut anywhere: the whole lines before the cut, and the line that is cut. -/
theorem text_split (hls : ∀ l ∈ ls, IsLine l) (h : v ++ rest = text ls) :
    ∃ ls₁ ls₂ t, ls = ls₁ ++ ls₂ ∧ v = text ls₁ ++ t ∧ '\n' ∉ t ∧ t ++ rest = text ls₂ := by
  induction ls generalizing v with
  | nil =>
      obtain ⟨rfl, rfl⟩ := List.append_eq_nil_iff.mp h
      exact ⟨[], [], [], rfl, rfl, List.not_mem_nil, rfl⟩
  | cons l ls ih =>
      obtain ⟨hl, hls⟩ := List.forall_mem_cons.mp hls
      have h' : v ++ rest = (l ++ ['\n']) ++ text ls := by rw [h, text]; simp
      rcases List.append_eq_append_iff.mp h' with ⟨a, hline, hrest⟩ | ⟨a, rfl, hrest⟩
      · -- the cut is in the first line, or right behind it
        rcases List.eq_nil_or_concat' a with rfl | ⟨a, x, rfl⟩
        · rw [List.append_nil] at hline
          refine ⟨[l], ls, [], rfl, ?_, List.not_mem_nil, hrest⟩
          rw [← hline, text, text, List.append_nil]
        · rw [← List.append_assoc] at hline
          have hpre := (List.append_inj_left' hline rfl)
          refine ⟨[], l :: ls, v, rfl, rfl, fun hmem => hl.no_newline ?_, h⟩
          rw [hpre]
          exact List.mem_append_left _ hmem
      · obtain ⟨ls₁, ls₂, t, rfl, rfl, ht, hcut⟩ := ih hls hrest.symm
        refine ⟨l :: ls₁, ls₂, t, rfl, ?_, ht, hcut⟩
        rw [text]
        simp

theorem eq_of_append_newline {l m a b : List Char} (hl : '\n' ∉ l) (hm : '\n' ∉ m)
    (h : l ++ '\n' :: a = m ++ '\n' :: b) : l = m ∧ a = b := by
  have hlen : l.length = m.length := by
    have hfind : l.length = (l ++ '\n' :: a).idxOf '\n' := by
      rw [List.idxOf_append_of_notMem hl, List.idxOf_cons_self, Nat.add_zero]
    rw [hfind, h, List.idxOf_append_of_notMem hm, List.idxOf_cons_self, Nat.add_zero]
  obtain ⟨rfl, hrest⟩ := List.append_inj h hlen
  exact ⟨rfl, List.tail_eq_of_cons_eq hrest⟩

/-- The lines of a text can be told from it. -/
theorem text_append_inj : ∀ {ls ms : List (List Char)} {t u : List Char}, (∀ l ∈ ls, '\n' ∉ l) →
    (∀ l ∈ ms, '\n' ∉ l) → '\n' ∉ t → '\n' ∉ u → text ls ++ t = text ms ++ u → ls = ms ∧ t = u
  | [], [], _, _, _, _, _, _, h => ⟨rfl, h⟩
  | [], m :: ms, t, u, _, _, ht, _, h => by
      refine absurd ?_ ht
      rw [show t = text (m :: ms) ++ u from h, text]
      simp
  | l :: ls, [], t, u, _, _, _, hu, h => by
      refine absurd ?_ hu
      rw [show u = text (l :: ls) ++ t from h.symm, text]
      simp
  | l :: ls, m :: ms, t, u, hls, hms, ht, hu, h => by
      obtain ⟨hl, hls'⟩ := List.forall_mem_cons.mp hls
      obtain ⟨hm, hms'⟩ := List.forall_mem_cons.mp hms
      rw [text, text, List.append_assoc, List.append_assoc, List.cons_append, List.cons_append] at h
      obtain ⟨rfl, hrest⟩ := eq_of_append_newline hl hm h
      obtain ⟨rfl, rfl⟩ := text_append_inj hls' hms' ht hu hrest
      exact ⟨rfl, rfl⟩

end Text

/-! ## The lines of a memory -/

section Cut

variable {s u t rest rest' : List Char} {ls ms : List (List Char)}

theorem cut_nil (h : strchr '\n' s = none) : Cut s [] s :=
  ⟨rfl, fun _ hl => absurd hl List.not_mem_nil, h⟩

theorem Cut.cons (h : Cut s ls rest) (hnul : NUL ∉ u) (hu : '\n' ∉ u) :
    Cut (u ++ '\n' :: s) (u :: ls) rest := by
  refine ⟨?_, List.forall_mem_cons.mpr ⟨⟨hnul, hu⟩, h.clean⟩, h.last⟩
  rw [text, List.append_assoc, List.cons_append, ← h.parts]

/-- Lines before a memory that has been cut. -/
theorem Cut.append (h : Cut s ls rest) (hms : ∀ l ∈ ms, NUL ∉ l ∧ '\n' ∉ l) :
    Cut (text ms ++ s) (ms ++ ls) rest := by
  refine ⟨?_, List.forall_mem_append.mpr ⟨hms, h.clean⟩, h.last⟩
  rw [text_append, List.append_assoc, ← h.parts]

theorem exists_cut (s : List Char) : ∃ ls rest, Cut s ls rest := by
  induction hlen : s.length using Nat.strongRecOn generalizing s with
  | ind n ih =>
    cases hfind : strchr '\n' s with
    | none => exact ⟨[], s, cut_nil hfind⟩
    | some k =>
        obtain ⟨u, v, rfl, -, hnul, hu⟩ := strchr_eq_some hfind
        obtain ⟨ls, rest, hcut⟩ := ih v.length (by
          rw [← hlen, List.length_append, List.length_cons]
          omega) v rfl
        exact ⟨u :: ls, rest, hcut.cons hnul hu⟩

end Cut

/-! ## The inner loop -/

section Scan

variable {pattern : List Char}

theorem length_marked (pattern : List Char) (ls : List (List Char)) :
    (marked pattern ls).length = (text ls).length := by
  induction ls with
  | nil => rfl
  | cons l ls ih => simp only [marked, text, List.length_append, List.length_cons, ih]

theorem matching_cons (pattern l : List Char) (ls : List (List Char)) :
    matching pattern (l :: ls) =
      if matchText pattern l then l ++ '\n' :: matching pattern ls else matching pattern ls := by
  unfold matching
  rw [List.filter_cons]
  split
  · rw [text]
  · rfl

theorem matching_append (pattern : List Char) (ls ms : List (List Char)) :
    matching pattern (ls ++ ms) = matching pattern ls ++ matching pattern ms := by
  rw [matching, List.filter_append, text_append, matching, matching]

/-- A round of the inner loop prints its line, or cuts it off. -/
theorem line_eq (pattern pre : List Char) {l : List Char} (hl : NUL ∉ l) (rest out : List Char) :
    Vars.line pattern (pre.length + l.length) ⟨pre ++ (l ++ '\n' :: rest), pre.length, out⟩ =
      if matchText pattern l then
        ⟨pre ++ (l ++ '\n' :: rest), (pre ++ l).length + 1, out ++ (l ++ ['\n'])⟩
      else ⟨pre ++ (l ++ NUL :: rest), (pre ++ l).length + 1, out⟩ := by
  have hset : ∀ a b : Char, (pre ++ (l ++ a :: rest)).set (pre.length + l.length) b =
      pre ++ (l ++ b :: rest) := by
    intro a b
    simp
  unfold Vars.line
  simp only [hset, List.drop_left, cstring_append hl, List.length_append]
  split
  · have hlen : pre.length + l.length + 1 - pre.length = (l ++ ['\n']).length := by
      rw [List.length_append, List.length_singleton]
      omega
    rw [hlen, List.append_cons l '\n' rest, List.take_left]
  · rfl

/-- The inner loop goes through the lines of the buffer. -/
theorem scan_cut (pattern : List Char) : ∀ {ls : List (List Char)} {n : Nat} {s rest : List Char}
    (pre out : List Char), Cut s ls rest → ls.length < n →
    scan pattern n ⟨pre ++ s, pre.length, out⟩ =
      ⟨pre ++ (marked pattern ls ++ rest), (pre ++ text ls).length, out ++ matching pattern ls⟩
  | _, 0, _, _, _, _, _, hn => absurd hn (Nat.not_lt_zero _)
  | [], n + 1, s, rest, pre, out, h, _ => by
      obtain rfl : s = rest := h.parts
      rw [scan]
      simp only [List.drop_left, h.last]
      simp [marked, text, matching]
  | l :: ls, n + 1, s, rest, pre, out, h, hn => by
      obtain ⟨hl, hls⟩ := List.forall_mem_cons.mp h.clean
      have hs : s = l ++ '\n' :: (text ls ++ rest) := by
        rw [h.parts, text, List.append_assoc, List.cons_append]
      have hcut : Cut (text ls ++ rest) ls rest := ⟨rfl, hls, h.last⟩
      have hnext : ∀ a : Char, pre ++ (l ++ a :: (text ls ++ rest)) =
          (pre ++ l ++ [a]) ++ (text ls ++ rest) := by
        intro a
        simp
      have hp : ∀ a : Char, (pre ++ l).length + 1 = (pre ++ l ++ [a]).length := by
        intro a
        simp only [List.length_append, List.length_singleton]
      have hlen : ∀ a : Char, (pre ++ l ++ [a] ++ text ls).length = (pre ++ text (l :: ls)).length := by
        intro a
        simp only [text, List.length_append, List.length_cons, List.length_nil]
        omega
      rw [scan]
      simp only [hs, List.drop_left, strchr_append hl.1 hl.2 (by decide), line_eq pattern pre hl.1,
        matching_cons]
      by_cases hmatch : matchText pattern l = true
      · rw [if_pos hmatch, if_pos hmatch, hnext, hp '\n',
          scan_cut pattern _ _ hcut (Nat.lt_of_succ_lt_succ hn), hlen, marked, if_pos hmatch]
        simp
      · rw [if_neg hmatch, if_neg hmatch, hnext, hp NUL,
          scan_cut pattern _ _ hcut (Nat.lt_of_succ_lt_succ hn), hlen, marked, if_neg hmatch]
        simp

end Scan

/-! ## The end of a round -/

section Carry

variable {pattern t d stale buf out : List Char} {ls : List (List Char)} {m : Int}

/-- Without a line everything is thrown away. -/
theorem carry_zero : Vars.carry ⟨buf, 0, out⟩ m = (buf, 0) := by
  simp [Vars.carry]

/-- The unfinished line moves to the start of the buffer. -/
theorem carry_keep (hne : ls ≠ []) (hm : m = (text ls ++ t).length) :
    Vars.carry ⟨marked pattern ls ++ (t ++ stale), (text ls).length, out⟩ m =
      (leftBehind pattern ls t stale, (t.length : Int)) := by
  have hpos : 0 < (text ls).length :=
    Nat.lt_of_lt_of_le (List.length_pos_iff.mpr hne) (length_le_text ls)
  have hmarked : marked pattern ls ≠ [] := by
    rw [← List.length_pos_iff, length_marked]
    exact hpos
  have hmove := memmove_down t stale [] (marked pattern ls) hmarked
  simp only [List.nil_append, List.length_nil, length_marked, List.append_assoc] at hmove
  have hle : t.length ≤ (marked pattern ls ++ t).length := by simp
  rw [List.length_append] at hm
  simp only [Vars.carry, if_neg (Nat.pos_iff_ne_zero.mp hpos)]
  rw [if_pos (by omega), show m - ((text ls).length : Int) = t.length by omega, Int.toNat_natCast,
    hmove, leftBehind, List.drop_append_of_le_length hle]

/-- The lines go on behind what was read. -/
theorem carry_over (hm : 0 < m) (hp : m < (text ls).length) :
    (Vars.carry ⟨buf, (text ls).length, out⟩ m).2 < 0 := by
  simp only [Vars.carry, if_neg (show (text ls).length ≠ 0 by omega), if_pos hm]
  omega

end Carry

/-! ## The outer loop -/

section Loop

variable {pattern buf t t' stale d out : List Char} {m : Int} {n : Nat}
  {src src' ls : List (List Char)}

/-- The buffer before a read, with the unfinished line at its start, and what there is to read. -/
structure Ready (buf t : List Char) (src : List (List Char)) : Prop where
  size : buf.length = BUFSIZE
  start : t <+: buf
  short : t.length < BUFSIZE
  no_nul : NUL ∉ t ++ src.flatten
  chunks : ∀ c ∈ src, c ≠ []

theorem fill_prefix (h : t <+: buf) : fill buf t.length d = t ++ d ++ buf.drop (t ++ d).length := by
  obtain ⟨s, rfl⟩ := h
  rw [fill, List.take_left, List.length_append]

/-- The read that `loop` makes, and the buffer after it. -/
theorem Reads.fills (h : Reads buf t src ls t' stale src') (hready : Ready buf t src) :
    ∃ d, d ≠ [] ∧ read ((BUFSIZE : Int) - (t.length : Int)).toNat src = (d, src') ∧
      fill buf (t.length : Int).toNat d = text ls ++ t' ++ stale ∧
      (t.length : Int) + d.length = ((text ls ++ t').length : Int) ∧
      (text ls ++ t' ++ stale).length = BUFSIZE := by
  obtain ⟨d, hd, hread, hsplit⟩ := h.bytes
  have hlen := congrArg List.length hsplit
  have hroom := read_length_le hread
  have hsize := hready.size
  refine ⟨d, hd, ?_, ?_, ?_, ?_⟩
  · rw [show ((BUFSIZE : Int) - (t.length : Int)).toNat = BUFSIZE - t.length by omega]
    exact hread
  · rw [Int.toNat_natCast, fill_prefix hready.start, hsplit, h.behind]
  · rw [List.length_append] at hlen
    omega
  · rw [List.length_append, h.behind, List.length_drop, ← hlen, List.length_append]
    have hshort := hready.short
    omega

theorem Reads.no_nul (h : Reads buf t src ls t' stale src') (hready : Ready buf t src) :
    (∀ l ∈ ls, NUL ∉ l) ∧ NUL ∉ t' ∧ NUL ∉ src'.flatten := by
  obtain ⟨d, -, hread, hsplit⟩ := h.bytes
  have hnul := hready.no_nul
  rw [← read_flatten hread, ← List.append_assoc, hsplit, List.mem_append, List.mem_append] at hnul
  exact ⟨fun l hl hmem => hnul (.inl (.inl (mem_text hl hmem))), fun hmem => hnul (.inl (.inr hmem)),
    fun hmem => hnul (.inr hmem)⟩

theorem Reads.clean (h : Reads buf t src ls t' stale src') (hready : Ready buf t src) :
    ∀ l ∈ ls, NUL ∉ l ∧ '\n' ∉ l :=
  fun l hl => ⟨(h.no_nul hready).1 l hl, h.lines l hl⟩

theorem Reads.chunks (h : Reads buf t src ls t' stale src') (hready : Ready buf t src) :
    ∀ c ∈ src', c ≠ [] := by
  obtain ⟨d, hd, hread, -⟩ := h.bytes
  cases src with
  | nil =>
      cases hread
      exact absurd rfl hd
  | cons c src => exact (read_ne_nil hread (Nat.sub_pos_of_lt hready.short) hready.chunks).2

/-- Before the end of the file there is a read. -/
theorem Ready.reads (hready : Ready buf t src) (hsrc : src ≠ []) :
    ∃ ls t' stale src', Reads buf t src ls t' stale src' := by
  obtain ⟨c, src, rfl⟩ := List.exists_cons_of_ne_nil hsrc
  obtain ⟨d, src', hread⟩ : ∃ d src', read (BUFSIZE - t.length) (c :: src) = (d, src') :=
    ⟨_, _, rfl⟩
  have hd := (read_ne_nil hread (Nat.sub_pos_of_lt hready.short) hready.chunks).1
  obtain ⟨ls, t', hcut⟩ := exists_cut (t ++ d)
  have hnul : NUL ∉ t' := by
    have hall := hready.no_nul
    rw [← read_flatten hread, ← List.append_assoc, hcut.parts] at hall
    exact fun hmem => hall (List.mem_append_left _ (List.mem_append_right _ hmem))
  exact ⟨ls, t', _, src', ⟨d, hd, hread, hcut.parts⟩, fun l hl => (hcut.clean l hl).2,
    not_mem_of_strchr hnul hcut.last, rfl⟩

/-- What a read that completes a line leaves. -/
theorem Ready.keep (hready : Ready buf t src) (h : Reads buf t src ls t' stale src')
    (hne : ls ≠ []) : Ready (leftBehind pattern ls t' stale) t' src' := by
  obtain ⟨d, -, -, -, -, hsize⟩ := h.fills hready
  obtain ⟨-, hnul, hrest⟩ := h.no_nul hready
  have hpos := Nat.lt_of_lt_of_le (List.length_pos_iff.mpr hne) (length_le_text ls)
  rw [List.length_append, List.length_append] at hsize
  refine ⟨?_, List.prefix_append .., by omega, ?_, h.chunks hready⟩
  · simp only [leftBehind, List.length_append, List.length_drop, length_marked]
    omega
  · exact fun hmem => (List.mem_append.mp hmem).elim hnul hrest

/-- What a read without a `'\n'` leaves. -/
theorem Ready.lose (hready : Ready buf t src) (h : Reads buf t src [] t' stale src') :
    Ready (t' ++ stale) [] src' := by
  obtain ⟨d, -, -, -, -, hsize⟩ := h.fills hready
  exact ⟨hsize, List.nil_prefix, by decide, (h.no_nul hready).2.2, h.chunks hready⟩

/-- A round of the outer loop, for the lines that the buffer then shows. -/
theorem loop_round (hready : Ready buf t src) (h : Reads buf t src ls t' stale src')
    {ks : List (List Char)} {rest : List Char} (hcut : Cut (text ls ++ t' ++ stale) ks rest)
    {buf' : List Char} {m' : Int} (hcarry : Vars.carry ⟨marked pattern ks ++ rest, (text ks).length,
      out ++ matching pattern ks⟩ (text ls ++ t').length = (buf', m')) :
    loop pattern (n + 1) src buf t.length out =
      loop pattern n src' buf' m' (out ++ matching pattern ks) := by
  obtain ⟨d, hd, hread, hfill, hm, hsize⟩ := h.fills hready
  have hfuel : ks.length < BUFSIZE + 1 := by
    have hle := length_le_text ks
    rw [hcut.parts, List.length_append] at hsize
    omega
  have hscan := scan_cut pattern [] out hcut hfuel
  simp only [List.nil_append, List.length_nil] at hscan
  rw [loop]
  simp only [hread, if_neg hd, if_neg (Int.not_lt.mpr (Int.natCast_nonneg t.length)), hfill, hscan, hm]
  rw [hcarry]

/-- Nothing in the buffer behind the read. -/
theorem Reads.cut (h : Reads buf t src ls t' stale src') (hready : Ready buf t src)
    (hstale : strchr '\n' stale = none) : Cut (text ls ++ t' ++ stale) ls (t' ++ stale) := by
  refine ⟨List.append_assoc .., h.clean hready, ?_⟩
  rw [strchr_skip (h.no_nul hready).2.1 h.unfinished, hstale]
  rfl

/-- Lines in the buffer behind the read. -/
theorem Reads.cut_stale (h : Reads buf t src ls t' stale src') (hready : Ready buf t src)
    {u rest : List Char} {ms : List (List Char)} (hstale : Cut stale (u :: ms) rest) :
    Cut (text ls ++ t' ++ stale) (ls ++ (t' ++ u) :: ms) rest := by
  obtain ⟨hu, hms⟩ := List.forall_mem_cons.mp hstale.clean
  have hline : Cut (t' ++ u ++ '\n' :: (text ms ++ rest)) ((t' ++ u) :: ms) rest :=
    Cut.cons ⟨rfl, hms, hstale.last⟩
      (fun hmem => (List.mem_append.mp hmem).elim (h.no_nul hready).2.1 hu.1)
      (fun hmem => (List.mem_append.mp hmem).elim h.unfinished hu.2)
  have hparts : t' ++ stale = t' ++ u ++ '\n' :: (text ms ++ rest) := by
    rw [hstale.parts, text]
    simp
  rw [List.append_assoc, hparts]
  exact hline.append (h.clean hready)

theorem loop_keep (hready : Ready buf t src) (h : Reads buf t src ls t' stale src')
    (hne : ls ≠ []) (hstale : strchr '\n' stale = none) :
    loop pattern (n + 1) src buf t.length out =
      loop pattern n src' (leftBehind pattern ls t' stale) t'.length (out ++ matching pattern ls) :=
  loop_round hready h (h.cut hready hstale) (carry_keep hne rfl)

theorem loop_lose (hready : Ready buf t src) (h : Reads buf t src [] t' stale src')
    (hstale : strchr '\n' stale = none) :
    loop pattern (n + 1) src buf t.length out = loop pattern n src' (t' ++ stale) 0 out := by
  refine (loop_round hready h (h.cut hready hstale) carry_zero).trans ?_
  simp [matching, text, marked]

/-- After old lines the loop can only stop. -/
theorem loop_stale (hready : Ready buf t src) (h : Reads buf t src ls t' stale src')
    {u rest : List Char} {ms : List (List Char)} (hstale : Cut stale (u :: ms) rest) :
    loop pattern (n + 2) src buf t.length out =
      if src' = [] then .ok (out ++ matching pattern (ls ++ (t' ++ u) :: ms))
      else .error .outOfBounds := by
  obtain ⟨d, hd, -, -, hm, -⟩ := h.fills hready
  have hpos := List.length_pos_iff.mpr hd
  have hover : ((text ls ++ t').length : Int) < (text (ls ++ (t' ++ u) :: ms)).length := by
    simp only [text_append, text, List.length_append, List.length_cons]
    omega
  obtain ⟨buf', m', hcarry, hneg⟩ : ∃ buf' m', Vars.carry ⟨marked pattern (ls ++ (t' ++ u) :: ms) ++
    rest, (text (ls ++ (t' ++ u) :: ms)).length, out ++ matching pattern (ls ++ (t' ++ u) :: ms)⟩
      (text ls ++ t').length = (buf', m') ∧ m' < 0 := ⟨_, _, rfl, carry_over (by omega) hover⟩
  rw [loop_round hready h (h.cut_stale hready hstale) hcarry, loop]
  obtain ⟨d', src'', hread⟩ : ∃ d' src'', read (BUFSIZE - m').toNat src' = (d', src'') :=
    ⟨_, _, rfl⟩
  simp only [hread]
  by_cases hsrc : src' = []
  · subst hsrc
    cases hread
    rfl
  · have hd' : d' ≠ [] := by
      rintro rfl
      exact hsrc (eq_nil_of_read hread (by unfold BUFSIZE; omega) (h.chunks hready))
    rw [if_neg hd', if_pos hneg, if_neg hsrc]

/-- What is left to read after a read. -/
theorem Reads.length_lt (h : Reads buf t src ls t' stale src') :
    src'.flatten.length < src.flatten.length := by
  obtain ⟨d, hd, hread, -⟩ := h.bytes
  have hpos := List.length_pos_iff.mpr hd
  rw [← read_flatten hread, List.length_append]
  omega

/-- `grep` prints the matching ones of the lines that it makes out. -/
theorem Sees.loop (h : Sees pattern buf t src ls) : ∀ {n : Nat} {out : List Char},
    Ready buf t src → src.flatten.length < n →
    loop pattern n src buf t.length out = .ok (out ++ matching pattern ls) := by
  induction h with
  | eof =>
      intro n out _ hn
      obtain ⟨n, rfl⟩ := Nat.exists_eq_add_of_lt hn
      simp [Grep.loop, read, matching, text]
  | keep hread hne hstale _ ih =>
      intro n out hready hn
      have hless := hread.length_lt
      obtain ⟨n, rfl⟩ := Nat.exists_eq_succ_of_ne_zero (by omega : n ≠ 0)
      rw [loop_keep hready hread hne hstale, ih (hready.keep hread hne) (by omega), matching_append,
        List.append_assoc]
  | lose hread hstale _ ih =>
      intro n out hready hn
      have hless := hread.length_lt
      obtain ⟨n, rfl⟩ := Nat.exists_eq_succ_of_ne_zero (by omega : n ≠ 0)
      rw [loop_lose hready hread hstale]
      exact ih (hready.lose hread) (by omega)
  | stale hread hcut =>
      intro n out hready hn
      have hless := hread.length_lt
      obtain ⟨n, rfl⟩ := Nat.exists_eq_add_of_le (by omega : 2 ≤ n)
      rw [Nat.add_comm, loop_stale hready hread hcut, if_pos rfl]

end Loop

/-! ## Steady reads -/

section Steady

variable {pattern buf t t' v stale : List Char} {src src' seen ls ks : List (List Char)}

/-- A read splits the lines of the input: those it completes are the first. -/
theorem Reads.split (h : Reads buf t src ks t' stale src') (hls : ∀ l ∈ ls, IsLine l)
    (htext : t ++ src.flatten = text ls) :
    ∃ ms, ls = ks ++ ms ∧ t' ++ src'.flatten = text ms := by
  obtain ⟨d, -, hread, hsplit⟩ := h.bytes
  rw [← read_flatten hread, ← List.append_assoc] at htext
  obtain ⟨ls₁, ls₂, u, rfl, hu, hnew, hrest⟩ := text_split hls htext
  obtain ⟨rfl, rfl⟩ := text_append_inj h.lines
    (fun l hl => (hls l (List.mem_append_left _ hl)).no_newline) h.unfinished hnew
    (hsplit.symm.trans hu)
  exact ⟨ls₂, rfl, hrest⟩

theorem Sees.lines (h : Sees pattern buf t src seen) (ht : '\n' ∉ t) : ∀ l ∈ seen, '\n' ∉ l := by
  induction h with
  | eof => exact fun _ hl => absurd hl List.not_mem_nil
  | keep hread _ _ _ ih => exact List.forall_mem_append.mpr ⟨hread.lines, ih hread.unfinished⟩
  | lose _ _ _ ih => exact ih List.not_mem_nil
  | stale hread hcut =>
      obtain ⟨hu, hms⟩ := List.forall_mem_cons.mp hcut.clean
      refine List.forall_mem_append.mpr ⟨hread.lines, List.forall_mem_cons.mpr ⟨?_, ?_⟩⟩
      · exact fun hmem => (List.mem_append.mp hmem).elim hread.unfinished hu.2
      · exact fun l hl => (hms l hl).2

end Steady

end Xv6Arm.Grep
