import Mathlib.Data.List.Basic

/-!
# The matcher of grep

The model of `match`, `matchhere` and `matchstar` of `grep.c`.  A string is the list of its
characters, without the NUL behind them: the end of a list is where the code reads `'\0'`.

The meaning of a pattern is the relation `Matches`, which says nothing about the order in
which the code tries the characters of a text.
-/

namespace Xv6Arm.Grep

/-! ## The code -/

/-- The loop of `matchstar(c, re, text)`, where `here` is `matchhere` with the pattern `re`. -/
def starLoop (here : List Char → Bool) (c : Char) : List Char → Bool
  | [] => here []
  | t :: text =>
      if here (t :: text) then true
      else if t = c ∨ c = '.' then starLoop here c text
      else false

/-- The last test of `matchhere`, where `here` is `matchhere` with the rest of the pattern. -/
def matchChar (here : List Char → Bool) (c : Char) : List Char → Bool
  | [] => false
  | t :: text => if c = '.' ∨ c = t then here text else false

/-- `matchhere(re, text)`. -/
def matchhere : List Char → List Char → Bool
  | [], _ => true
  | [c], text => if c = '$' then text.isEmpty else matchChar (matchhere []) c text
  | c :: d :: re, text =>
      if d = '*' then starLoop (matchhere re) c text else matchChar (matchhere (d :: re)) c text

/-- `matchstar(c, re, text)`. -/
def matchstar (c : Char) (re text : List Char) : Bool := starLoop (matchhere re) c text

/-- The loop of `match`. -/
def searchLoop (re : List Char) : List Char → Bool
  | [] => matchhere re []
  | t :: text => if matchhere re (t :: text) then true else searchLoop re text

/-- `match(re, text)`. -/
def matchText (re text : List Char) : Bool :=
  if re.head? = some '^' then matchhere re.tail text else searchLoop re text

/-! ## The meaning of patterns -/

/-- The pattern matches the text from its first character on. -/
inductive Matches : List Char → List Char → Prop
  | nil (text : List Char) : Matches [] text
  | star {c : Char} {re w text : List Char} :
      (∀ t ∈ w, c = '.' ∨ t = c) → Matches re text → Matches (c :: '*' :: re) (w ++ text)
  | dollar : Matches ['$'] []
  | char {c t : Char} {re text : List Char} :
      re.head? ≠ some '*' → ¬ (c = '$' ∧ re = []) → (c = '.' ∨ c = t) → Matches re text →
      Matches (c :: re) (t :: text)

/-- The pattern matches the text somewhere, or at its start if the pattern says so. -/
def Found (re text : List Char) : Prop :=
  if re.head? = some '^' then Matches re.tail text
  else ∃ before rest, text = before ++ rest ∧ Matches re rest

/-! ## The loops -/

section Loops

variable {here : List Char → Bool} {c : Char} {re text : List Char}

/-- The loop of `matchstar` finds every number of characters that it may skip. -/
theorem starLoop_iff : starLoop here c text = true ↔
    ∃ w rest, text = w ++ rest ∧ (∀ t ∈ w, c = '.' ∨ t = c) ∧ here rest = true := by
  induction text with
  | nil =>
      constructor
      · intro h
        exact ⟨[], [], rfl, fun t ht => absurd ht List.not_mem_nil, h⟩
      · rintro ⟨w, rest, htext, -, h⟩
        obtain ⟨rfl, rfl⟩ := List.append_eq_nil_iff.mp htext.symm
        exact h
  | cons t text ih =>
      rw [starLoop]
      constructor
      · intro h
        split at h
        · next hhere => exact ⟨[], t :: text, rfl, fun t ht => absurd ht List.not_mem_nil, hhere⟩
        split at h
        · next hskip =>
          obtain ⟨w, rest, rfl, hw, hrest⟩ := ih.mp h
          exact ⟨t :: w, rest, rfl, List.forall_mem_cons.mpr ⟨hskip.symm, hw⟩, hrest⟩
        · cases h
      · rintro ⟨w, rest, htext, hw, hrest⟩
        split
        · rfl
        next hhere =>
        -- The characters to skip are not none, since `here` fails on the whole text.
        cases w with
        | nil =>
            rw [List.nil_append] at htext
            exact absurd (htext ▸ hrest) hhere
        | cons s w =>
            obtain ⟨rfl, rfl⟩ := List.cons.inj htext
            obtain ⟨hs, hw⟩ := List.forall_mem_cons.mp hw
            rw [if_pos hs.symm]
            exact ih.mpr ⟨w, rest, rfl, hw, hrest⟩

theorem matchChar_iff : matchChar here c text = true ↔
    ∃ t rest, text = t :: rest ∧ (c = '.' ∨ c = t) ∧ here rest = true := by
  cases text with
  | nil => simp [matchChar]
  | cons t text =>
      rw [matchChar]
      constructor
      · intro h
        split at h
        · next hc => exact ⟨t, text, rfl, hc, h⟩
        · cases h
      · rintro ⟨s, rest, htext, hc, h⟩
        obtain ⟨rfl, rfl⟩ := List.cons.inj htext
        rw [if_pos hc]
        exact h

theorem searchLoop_iff : searchLoop re text = true ↔
    ∃ before rest, text = before ++ rest ∧ matchhere re rest = true := by
  induction text with
  | nil =>
      constructor
      · intro h
        exact ⟨[], [], rfl, h⟩
      · rintro ⟨before, rest, htext, h⟩
        obtain ⟨rfl, rfl⟩ := List.append_eq_nil_iff.mp htext.symm
        exact h
  | cons t text ih =>
      rw [searchLoop]
      constructor
      · intro h
        split at h
        · next hhere => exact ⟨[], t :: text, rfl, hhere⟩
        · obtain ⟨before, rest, rfl, hrest⟩ := ih.mp h
          exact ⟨t :: before, rest, rfl, hrest⟩
      · rintro ⟨before, rest, htext, hrest⟩
        split
        · rfl
        next hhere =>
        cases before with
        | nil =>
            rw [List.nil_append] at htext
            exact absurd (htext ▸ hrest) hhere
        | cons s before =>
            obtain ⟨rfl, rfl⟩ := List.cons.inj htext
            exact ih.mpr ⟨before, rest, rfl, hrest⟩

end Loops

/-! ## The matcher -/

section Matcher

variable {c d : Char} {re text : List Char}

theorem matches_dollar_iff : Matches ['$'] text ↔ text = [] := by
  constructor
  · intro h
    cases h with
    | dollar => rfl
    | char _ hlast _ _ => exact absurd ⟨rfl, rfl⟩ hlast
  · rintro rfl
    exact .dollar

theorem matches_star_iff : Matches (c :: '*' :: re) text ↔
    ∃ w rest, text = w ++ rest ∧ (∀ t ∈ w, c = '.' ∨ t = c) ∧ Matches re rest := by
  constructor
  · intro h
    cases h with
    | star hw hrest => exact ⟨_, _, rfl, hw, hrest⟩
    | char hstar _ _ _ => exact absurd rfl hstar
  · rintro ⟨w, rest, rfl, hw, hrest⟩
    exact .star hw hrest

theorem matches_char_iff (hstar : re.head? ≠ some '*') (hlast : ¬ (c = '$' ∧ re = [])) :
    Matches (c :: re) text ↔ ∃ t rest, text = t :: rest ∧ (c = '.' ∨ c = t) ∧ Matches re rest := by
  constructor
  · intro h
    cases h with
    | star _ _ => exact absurd rfl hstar
    | dollar => exact absurd ⟨rfl, rfl⟩ hlast
    | char _ _ hc hrest => exact ⟨_, _, rfl, hc, hrest⟩
  · rintro ⟨t, rest, rfl, hc, hrest⟩
    exact .char hstar hlast hc hrest

theorem matchhere_star : matchhere (c :: '*' :: re) text = matchstar c re text := by
  rw [matchhere, if_pos rfl, matchstar]

/-- `matchhere` decides the relation.  The induction is on the pattern; the texts that are left
to match are those that the loops have skipped to. -/
theorem matchhere_iff : ∀ re text : List Char, matchhere re text = true ↔ Matches re text
  | [], text => by
      rw [matchhere]
      exact ⟨fun _ => .nil text, fun _ => rfl⟩
  | [c], text => by
      rw [matchhere]
      by_cases hc : c = '$'
      · rw [if_pos hc, hc, matches_dollar_iff, List.isEmpty_iff]
      · rw [if_neg hc, matchChar_iff, matches_char_iff (by simp) fun h => hc h.1]
        simp only [matchhere_iff []]
  | c :: d :: re, text => by
      by_cases hd : d = '*'
      · subst hd
        rw [matchhere_star, matchstar, starLoop_iff, matches_star_iff]
        simp only [matchhere_iff re]
      · rw [matchhere, if_neg hd, matchChar_iff, matches_char_iff (by simpa using hd) (by simp)]
        simp only [matchhere_iff (d :: re)]

/-- `match` returns 1 exactly if the pattern is found in the text. -/
theorem matchText_iff (re text : List Char) : matchText re text = true ↔ Found re text := by
  unfold matchText Found
  split
  · exact matchhere_iff re.tail text
  · simp only [searchLoop_iff, matchhere_iff]

/-- The star of a dollar sign, a star that stands for itself, and a dollar sign after a star. -/
example : matchText ['^', '$', '*', 'a'] ['$', '$', 'a'] = true ∧
    matchText ['*', 'b', '*'] ['a', '*', 'b', 'b'] = true ∧
    matchText ['.', '*', '$', 'a'] ['a', '$', 'a'] = true ∧
    matchText ['^', 'a', '.', '*', '$'] ['b', 'a'] = false := by decide

end Matcher

end Xv6Arm.Grep
