import Mathlib.Data.List.Basic
import Mathlib.Data.List.Induction
import Mathlib.Logic.Function.Basic

/-!
# Redo logs

A store is a function from addresses to blocks, changed by atomic writes of one
block.  A redo log keeps part of the addresses for itself, the *area*: a header
block, which names the addresses of a transaction, and slots, which hold the new
contents of those addresses in the same order.  The other addresses are *home*.

`Layout.recovered d` is what recovery makes of the home addresses of a store
`d`: the entries of its log applied to it.  It is an abstraction function.  A
write to a slot of a clean log, an installing write and the erasing of an
installed log leave it alone, and only the write of a header that names entries
changes it, all at once.  So a crash between any two writes of a transaction
leaves a store that recovers to the state before the transaction or to the state
after it, and a crash during recovery leaves a store that recovers to the same
state as before.
-/

namespace RedoLog

variable {A B : Type*}

/-! ## Logs -/

/-- Where a redo log keeps its header and its slots, and how a header names the
addresses of a transaction. -/
structure Layout (A B : Type*) where
  /-- The address of the header. -/
  header : A
  /-- The address of a slot. -/
  slot : Nat → A
  /-- The number of slots. -/
  cap : Nat
  /-- The addresses of the log. -/
  area : A → Prop
  /-- The number of addresses a header block names. -/
  count : B → Nat
  /-- The addresses it names. -/
  target : B → Nat → A
  header_area : area header
  slot_area : ∀ i, i < cap → area (slot i)
  slot_ne_header : ∀ i, i < cap → slot i ≠ header

variable (L : Layout A B)

/-- The entries of the log: the addresses the header names, with the blocks in
the slots. -/
def Layout.entries (d : A → B) : List (A × B) :=
  (List.range (L.count (d L.header))).map fun i => (L.target (d L.header) i, d (L.slot i))

/-- The header fits the slots and names home addresses only.  `P` says which
blocks a home address may hold, and holds of the store and of the entries. -/
structure Layout.Wf (P : A → B → Prop) (d : A → B) : Prop where
  fits : L.count (d L.header) ≤ L.cap
  home : ∀ i, i < L.count (d L.header) → ¬ L.area (L.target (d L.header) i)
  store : ∀ x, ¬ L.area x → P x (d x)
  entry : ∀ w ∈ L.entries d, P w.1 w.2

/-- The header names nothing. -/
def Layout.Clean (d : A → B) : Prop := L.count (d L.header) = 0

variable {L} {P : A → B → Prop}

/-- A home address is not the header's. -/
theorem Layout.ne_header {x : A} (hx : ¬ L.area x) : x ≠ L.header := by
  rintro rfl
  exact hx L.header_area

/-- A home address is not a slot's. -/
theorem Layout.ne_slot {x : A} (hx : ¬ L.area x) {i : Nat} (hi : i < L.cap) :
    x ≠ L.slot i := by
  rintro rfl
  exact hx (L.slot_area i hi)

theorem Layout.Clean.entries_eq {d : A → B} (h : L.Clean d) : L.entries d = [] := by
  rw [Layout.Clean] at h
  rw [Layout.entries, h]
  rfl

theorem Layout.Clean.wf {d : A → B} (h : L.Clean d) (hP : ∀ x, ¬ L.area x → P x (d x)) :
    L.Wf P d := by
  have hent := h.entries_eq
  rw [Layout.Clean] at h
  refine ⟨by omega, by omega, hP, ?_⟩
  rw [hent]
  intro w hw
  cases hw

/-- The entries depend on the header and on the slots it uses. -/
theorem Layout.entries_congr {d e : A → B} (hh : d L.header = e L.header)
    (hs : ∀ i, i < L.count (d L.header) → d (L.slot i) = e (L.slot i)) :
    L.entries d = L.entries e := by
  rw [Layout.entries, Layout.entries, ← hh]
  apply List.map_congr_left
  intro i hi
  rw [hs i (List.mem_range.mp hi)]

/-- The entries of a well-formed log name home addresses. -/
theorem Layout.Wf.home_of_mem {d : A → B} (h : L.Wf P d) {w : A × B} (hw : w ∈ L.entries d) :
    ¬ L.area w.1 := by
  obtain ⟨i, hi, rfl⟩ := List.mem_map.mp hw
  exact h.home i (List.mem_range.mp hi)

variable [DecidableEq A]

/-! ## Writes -/

/-- A store after a list of writes. -/
def replay (ws : List (A × B)) (d : A → B) : A → B :=
  ws.foldl (fun d w => Function.update d w.1 w.2) d

@[simp] theorem replay_nil (d : A → B) : replay [] d = d := rfl

@[simp] theorem replay_cons (w : A × B) (ws : List (A × B)) (d : A → B) :
    replay (w :: ws) d = replay ws (Function.update d w.1 w.2) := rfl

theorem replay_append (ws vs : List (A × B)) (d : A → B) :
    replay (ws ++ vs) d = replay vs (replay ws d) := List.foldl_append

/-- An address no write touches keeps its block. -/
theorem replay_of_notMem {x : A} : ∀ {ws : List (A × B)} {d : A → B},
    x ∉ ws.map Prod.fst → replay ws d x = d x
  | [], _, _ => rfl
  | w :: ws, d, h => by
      rw [List.map_cons, List.mem_cons, not_or] at h
      rw [replay_cons, replay_of_notMem h.2, Function.update_of_ne h.1]

/-- What the writes leave at an address depends on the store only if no write
touches the address. -/
theorem replay_congr {x : A} : ∀ {ws : List (A × B)} {d e : A → B},
    (x ∈ ws.map Prod.fst ∨ d x = e x) → replay ws d x = replay ws e x
  | [], _, _, h => by
      cases h with
      | inl h => cases h
      | inr h => exact h
  | w :: ws, d, e, h => by
      rw [replay_cons, replay_cons]
      apply replay_congr
      by_cases hx : x = w.1
      · right
        rw [hx, Function.update_self, Function.update_self]
      · rw [Function.update_of_ne hx, Function.update_of_ne hx]
        cases h with
        | inl h =>
            rw [List.map_cons, List.mem_cons] at h
            exact Or.inl (h.resolve_left hx)
        | inr h => exact Or.inr h

/-- Writes under other addresses. -/
theorem replay_map {A' : Type*} [DecidableEq A'] (f : A → A') {x : A} : ∀ {ws : List (A × B)}
    {d : A' → B} {e : A → B}, (∀ w ∈ ws, f w.1 = f x → w.1 = x) → d (f x) = e x →
    replay (ws.map fun w => (f w.1, w.2)) d (f x) = replay ws e x
  | [], _, _, _, h => h
  | w :: ws, d, e, hinj, h => by
      rw [List.map_cons, replay_cons, replay_cons]
      apply replay_map f fun v hv => hinj v (List.mem_cons_of_mem _ hv)
      by_cases hx : x = w.1
      · rw [← hx, Function.update_self, Function.update_self]
      · have hne : f x ≠ f w.1 := fun heq => hx (hinj w List.mem_cons_self heq.symm).symm
        rw [Function.update_of_ne hne, Function.update_of_ne hx, h]

/-- A write to an address that is written again later does not matter. -/
theorem replay_update_of_mem {ws : List (A × B)} {d : A → B} {a : A} {b : B}
    (h : a ∈ ws.map Prod.fst) : replay ws (Function.update d a b) = replay ws d := by
  funext x
  apply replay_congr
  by_cases hx : x = a
  · exact Or.inl (hx ▸ h)
  · exact Or.inr (Function.update_of_ne hx _ _)

/-! ## Absorption -/

/-- A table of writes with one more.  The write takes the place of the one to the
same address, if there is one. -/
def absorb : List (A × B) → A → B → List (A × B)
  | [], a, b => [(a, b)]
  | e :: es, a, b => if e.1 = a then (a, b) :: es else e :: absorb es a b

/-- The place a write takes in the table. -/
theorem absorb_getElem? (a : A) (b : B) : ∀ (es : List (A × B)) (j : Nat),
    (absorb es a b)[j]? = if j = (es.map Prod.fst).idxOf a then some (a, b) else es[j]?
  | [], j => by
      rw [absorb, List.map_nil, List.idxOf_nil]
      cases j with
      | zero => rfl
      | succ j => rfl
  | e :: es, j => by
      rw [absorb, List.map_cons]
      by_cases he : e.1 = a
      · rw [if_pos he, List.idxOf_cons_eq _ he]
        cases j with
        | zero => rfl
        | succ j => rfl
      · rw [if_neg he, List.idxOf_cons_ne _ he]
        cases j with
        | zero => rfl
        | succ j =>
            rw [List.getElem?_cons_succ, List.getElem?_cons_succ, absorb_getElem? a b es j]
            simp only [Nat.succ.injEq]

/-- The table grows if the address is new. -/
theorem length_absorb (a : A) (b : B) : ∀ es : List (A × B),
    (absorb es a b).length =
      if (es.map Prod.fst).idxOf a = es.length then es.length + 1 else es.length
  | [] => rfl
  | e :: es => by
      rw [absorb, List.map_cons]
      by_cases he : e.1 = a
      · rw [if_pos he, List.idxOf_cons_eq _ he]
        rfl
      · rw [if_neg he, List.idxOf_cons_ne _ he, List.length_cons, length_absorb a b es]
        simp only [List.length_cons, Nat.succ.injEq]
        split <;> rfl

/-- The addresses of a table that absorbs a write. -/
theorem mem_absorb {a x : A} {b : B} : ∀ {es : List (A × B)},
    x ∈ (absorb es a b).map Prod.fst ↔ x = a ∨ x ∈ es.map Prod.fst
  | [] => by rw [absorb]; simp
  | e :: es => by
      rw [absorb]
      by_cases he : e.1 = a
      · rw [if_pos he, List.map_cons, List.map_cons, List.mem_cons, List.mem_cons, he]
        tauto
      · rw [if_neg he, List.map_cons, List.map_cons, List.mem_cons, List.mem_cons,
          mem_absorb]
        tauto

/-- The entries of a table that absorbs a write. -/
theorem eq_or_mem_of_mem_absorb {a : A} {b : B} {e : A × B} : ∀ {es : List (A × B)},
    e ∈ absorb es a b → e = (a, b) ∨ e ∈ es
  | [], h => Or.inl (List.mem_singleton.mp h)
  | f :: es, h => by
      rw [absorb] at h
      by_cases hf : f.1 = a
      · rw [if_pos hf, List.mem_cons] at h
        exact h.imp_right (List.mem_cons_of_mem f)
      · rw [if_neg hf, List.mem_cons] at h
        cases h with
        | inl h => exact Or.inr (h ▸ List.mem_cons_self ..)
        | inr h => exact (eq_or_mem_of_mem_absorb h).imp_right (List.mem_cons_of_mem f)

theorem nodup_absorb {a : A} {b : B} : ∀ {es : List (A × B)},
    (es.map Prod.fst).Nodup → ((absorb es a b).map Prod.fst).Nodup
  | [], _ => by rw [absorb]; simp
  | e :: es, h => by
      rw [absorb]
      rw [List.map_cons, List.nodup_cons] at h
      by_cases he : e.1 = a
      · rw [if_pos he, List.map_cons, List.nodup_cons, ← he]
        exact h
      · rw [if_neg he, List.map_cons, List.nodup_cons, mem_absorb]
        exact ⟨fun hm => hm.elim he h.1, nodup_absorb h.2⟩

/-- A write commutes with writes to other addresses. -/
theorem replay_update_comm {a : A} {b : B} {es : List (A × B)} {d : A → B}
    (h : a ∉ es.map Prod.fst) :
    replay es (Function.update d a b) = Function.update (replay es d) a b := by
  funext x
  by_cases hx : x = a
  · rw [hx, Function.update_self, replay_of_notMem h, Function.update_self]
  · rw [Function.update_of_ne hx]
    exact replay_congr (Or.inr (Function.update_of_ne hx _ _))

/-- A table that absorbs a write acts as the table followed by the write. -/
theorem replay_absorb {a : A} {b : B} : ∀ {es : List (A × B)} {d : A → B},
    (es.map Prod.fst).Nodup → replay (absorb es a b) d = Function.update (replay es d) a b
  | [], _, _ => rfl
  | e :: es, d, h => by
      rw [absorb]
      rw [List.map_cons, List.nodup_cons] at h
      by_cases he : e.1 = a
      · rw [if_pos he, replay_cons, replay_cons, ← replay_update_comm (he ▸ h.1), he,
          Function.update_idem]
      · rw [if_neg he, replay_cons, replay_cons, replay_absorb h.2]

/-- A table with a list of writes absorbed, first to last. -/
def absorbAll : List (A × B) → List (A × B) → List (A × B)
  | es, [] => es
  | es, w :: ws => absorbAll (absorb es w.1 w.2) ws

theorem replay_absorbAll : ∀ {ws es : List (A × B)} {d : A → B}, (es.map Prod.fst).Nodup →
    replay (absorbAll es ws) d = replay ws (replay es d)
  | [], _, _, _ => rfl
  | w :: ws, es, d, h => by
      rw [absorbAll, replay_absorbAll (nodup_absorb h), replay_absorb h, replay_cons]

theorem mem_absorbAll {e : A × B} : ∀ {ws es : List (A × B)},
    e ∈ absorbAll es ws → e ∈ ws ∨ e ∈ es
  | [], _, h => Or.inr h
  | w :: ws, es, h => by
      have h : e ∈ absorbAll (absorb es w.1 w.2) ws := h
      cases mem_absorbAll h with
      | inl h => exact Or.inl (List.mem_cons_of_mem w h)
      | inr h =>
          cases eq_or_mem_of_mem_absorb h with
          | inl h => exact Or.inl (h ▸ List.mem_cons_self ..)
          | inr h => exact Or.inr h

theorem length_le_absorbAll : ∀ (ws es : List (A × B)), es.length ≤ (absorbAll es ws).length
  | [], _ => Nat.le_refl _
  | w :: ws, es => by
      have hstep : es.length ≤ (absorb es w.1 w.2).length := by
        rw [length_absorb]
        split <;> omega
      exact Nat.le_trans hstep (length_le_absorbAll ws _)

/-- The block of the last write to an address. -/
def lastWrite (a : A) (ws : List (A × B)) : Option B :=
  ws.foldl (fun last w => if w.1 = a then some w.2 else last) none

theorem absorbAll_append_singleton (w : A × B) : ∀ (ws es : List (A × B)),
    absorbAll es (ws ++ [w]) = absorb (absorbAll es ws) w.1 w.2
  | [], _ => rfl
  | _ :: ws, _ => absorbAll_append_singleton w ws _

theorem nodup_absorbAll : ∀ {ws es : List (A × B)}, (es.map Prod.fst).Nodup →
    ((absorbAll es ws).map Prod.fst).Nodup
  | [], _, h => h
  | w :: ws, es, h => by
      rw [absorbAll]
      exact nodup_absorbAll (nodup_absorb h)

/-- The entry that a table has for an address after it absorbs a write. -/
theorem mem_absorb_iff {a x : A} {b y : B} : ∀ {es : List (A × B)}, (es.map Prod.fst).Nodup →
    ((a, b) ∈ absorb es x y ↔ if x = a then y = b else (a, b) ∈ es)
  | [], _ => by
      rw [absorb, List.mem_singleton, Prod.mk.injEq]
      split
      · next hx => exact ⟨fun h => h.2.symm, fun h => ⟨hx.symm, h.symm⟩⟩
      · next hx => exact ⟨fun h => absurd h.1.symm hx, fun h => nomatch h⟩
  | e :: es, h => by
      rw [List.map_cons, List.nodup_cons] at h
      rw [absorb]
      by_cases he : e.1 = x
      · rw [if_pos he, List.mem_cons, Prod.mk.injEq]
        split
        · next hx =>
          have hnot : (a, b) ∉ es := fun hm =>
            h.1 (he.trans hx ▸ List.mem_map_of_mem hm)
          exact ⟨fun hm => hm.elim (fun hm => hm.2.symm) (fun hm => absurd hm hnot),
            fun hy => .inl ⟨hx.symm, hy.symm⟩⟩
        · next hx =>
          rw [List.mem_cons]
          refine or_congr_left ⟨fun hm => absurd hm.1.symm hx, fun hm => ?_⟩
          exact absurd (he.symm.trans (congrArg Prod.fst hm).symm) hx
      · rw [if_neg he, List.mem_cons, mem_absorb_iff h.2]
        split
        · next hx =>
          refine ⟨fun hm => hm.resolve_left fun hm => he ?_, .inr⟩
          rw [← hm, hx]
        · rw [List.mem_cons]

/-- A table of writes has the last write to each address. -/
theorem mem_absorbAll_iff {a : A} {b : B} (ws : List (A × B)) :
    (a, b) ∈ absorbAll [] ws ↔ lastWrite a ws = some b := by
  induction ws using List.reverseRec with
  | nil => exact ⟨fun h => (List.not_mem_nil h).elim, fun h => by cases h⟩
  | append_singleton ws w ih =>
      have hnodup : ((absorbAll [] ws).map Prod.fst).Nodup := nodup_absorbAll List.nodup_nil
      rw [absorbAll_append_singleton, mem_absorb_iff hnodup, lastWrite, List.foldl_append,
        List.foldl_cons, List.foldl_nil]
      split
      · exact ⟨congrArg some, Option.some.inj⟩
      · exact ih

/-! ## Recovery -/

/-- What recovery makes of a store. -/
def Layout.recovered (L : Layout A B) (d : A → B) : A → B := replay (L.entries d) d

/-- A clean store recovers to itself. -/
theorem Layout.Clean.recovered_eq {d : A → B} (h : L.Clean d) : L.recovered d = d := by
  rw [Layout.recovered, h.entries_eq, replay_nil]

/-! ## Installing -/

/-- A write to a home address changes neither the header nor the slots. -/
theorem Layout.Wf.entries_update {d : A → B} (h : L.Wf P d) {a : A} (ha : ¬ L.area a) (b : B) :
    L.entries (Function.update d a b) = L.entries d := by
  have hh : Function.update d a b L.header = d L.header :=
    Function.update_of_ne (Layout.ne_header ha).symm _ _
  apply Layout.entries_congr hh
  intro i hi
  rw [hh] at hi
  exact Function.update_of_ne (Layout.ne_slot ha (Nat.lt_of_lt_of_le hi h.fits)).symm _ _

theorem Layout.Wf.update {d : A → B} (h : L.Wf P d) {a : A} (ha : ¬ L.area a) {b : B}
    (hb : P a b) : L.Wf P (Function.update d a b) := by
  have hh : Function.update d a b L.header = d L.header :=
    Function.update_of_ne (Layout.ne_header ha).symm _ _
  refine ⟨?_, ?_, ?_, ?_⟩
  · rw [hh]; exact h.fits
  · rw [hh]; exact h.home
  · intro x hx
    by_cases hxa : x = a
    · rw [hxa, Function.update_self]
      exact hb
    · rw [Function.update_of_ne hxa]
      exact h.store x hx
  · rw [h.entries_update ha]
    exact h.entry

/-- Writes of entries of the log keep the log and what it recovers to. -/
theorem Layout.Wf.install : ∀ (ws : List (A × B)) {d : A → B}, L.Wf P d →
    (∀ w ∈ ws, w ∈ L.entries d) →
    L.Wf P (replay ws d) ∧ L.entries (replay ws d) = L.entries d ∧
      L.recovered (replay ws d) = L.recovered d
  | [], _, h, _ => ⟨h, rfl, rfl⟩
  | w :: ws, d, h, hmem => by
      have hw : w ∈ L.entries d := hmem w (List.mem_cons_self ..)
      have hhome : ¬ L.area w.1 := h.home_of_mem hw
      have hent := h.entries_update hhome w.2
      obtain ⟨h1, h2, h3⟩ := Layout.Wf.install ws (h.update hhome (h.entry w hw)) (by
        intro u hu
        rw [hent]
        exact hmem u (List.mem_cons_of_mem _ hu))
      refine ⟨h1, h2.trans hent, h3.trans ?_⟩
      rw [Layout.recovered, Layout.recovered, hent]
      exact replay_update_of_mem (List.mem_map_of_mem hw)

/-! ## Erasing -/

/-- A header that names nothing, over any store: its home addresses are kept. -/
theorem Layout.recovered_erase {d : A → B} {h₀ : B} (hclean : L.count h₀ = 0) {x : A}
    (hx : ¬ L.area x) : L.recovered (Function.update d L.header h₀) x = d x := by
  have hc : L.Clean (Function.update d L.header h₀) := by
    rw [Layout.Clean, Function.update_self]
    exact hclean
  rw [hc.recovered_eq]
  exact Function.update_of_ne (Layout.ne_header hx) _ _

/-- The writes of recovery: install the entries, then erase the header. -/
def Layout.redo (L : Layout A B) (d : A → B) (h₀ : B) : List (A × B) :=
  L.entries d ++ [(L.header, h₀)]

/-- A crash during recovery: the store that is left is well formed and recovers
to the same home addresses. -/
theorem Layout.Wf.redo_crash {d : A → B} (h : L.Wf P d) {h₀ : B} (hclean : L.count h₀ = 0)
    (k : Nat) : L.Wf P (replay ((L.redo d h₀).take k) d) ∧
      ∀ x, ¬ L.area x → L.recovered (replay ((L.redo d h₀).take k) d) x = L.recovered d x := by
  by_cases hk : k ≤ (L.entries d).length
  · rw [Layout.redo, List.take_append_of_le_length hk]
    obtain ⟨hwf, -, hrec⟩ := Layout.Wf.install ((L.entries d).take k) h
      (fun w hw => List.mem_of_mem_take hw)
    exact ⟨hwf, fun x _ => by rw [hrec]⟩
  · have hall : (L.redo d h₀).take k = L.redo d h₀ := by
      apply List.take_of_length_le
      rw [Layout.redo, List.length_append, List.length_singleton]
      omega
    obtain ⟨hinst, -, -⟩ := Layout.Wf.install (L.entries d) h (fun w hw => hw)
    rw [hall, Layout.redo, replay_append, replay_cons, replay_nil]
    constructor
    · apply Layout.Clean.wf
      · rw [Layout.Clean, Function.update_self]
        exact hclean
      · intro x hx
        rw [Function.update_of_ne (Layout.ne_header hx)]
        exact hinst.store x hx
    · intro x hx
      rw [Layout.recovered_erase hclean hx]
      rfl

/-- Recovery that runs to its end leaves the home addresses it was to leave, and
a clean log. -/
theorem Layout.redo_complete {d : A → B} {h₀ : B} (hclean : L.count h₀ = 0) :
    L.Clean (replay (L.redo d h₀) d) ∧
      ∀ x, ¬ L.area x → replay (L.redo d h₀) d x = L.recovered d x := by
  rw [Layout.redo, replay_append, replay_cons, replay_nil]
  constructor
  · rw [Layout.Clean, Function.update_self]
    exact hclean
  · intro x hx
    rw [Function.update_of_ne (Layout.ne_header hx)]
    rfl

/-! ## Transactions -/

/-- Writes to slots leave the header and the home addresses alone. -/
theorem Layout.replay_slots {ws : List (A × B)} {d : A → B}
    (hws : ∀ w ∈ ws, ∃ i, i < L.cap ∧ w.1 = L.slot i) :
    replay ws d L.header = d L.header ∧ ∀ x, ¬ L.area x → replay ws d x = d x := by
  constructor
  · apply replay_of_notMem
    intro hm
    obtain ⟨w, hw, he⟩ := List.mem_map.mp hm
    obtain ⟨i, hi, hs⟩ := hws w hw
    exact L.slot_ne_header i hi (hs.symm.trans he)
  · intro x hx
    apply replay_of_notMem
    intro hm
    obtain ⟨w, hw, he⟩ := List.mem_map.mp hm
    obtain ⟨i, hi, hs⟩ := hws w hw
    rw [← he, hs] at hx
    exact hx (L.slot_area i hi)

/-- The writes of a transaction on a store `d`: fill slots, write the header that
names the entries, install them and erase the header. -/
def Layout.transaction (L : Layout A B) (d : A → B) (fill : List (A × B)) (hc h₀ : B) :
    List (A × B) :=
  fill ++ (L.header, hc) :: L.redo (Function.update (replay fill d) L.header hc) h₀

section Transaction

variable {d : A → B} {fill : List (A × B)} {hc h₀ : B}

/-- A crash before the header is written: the store recovers to where it was. -/
theorem Layout.Clean.crash_before (h : L.Clean d) (hP : ∀ x, ¬ L.area x → P x (d x))
    (hfill : ∀ w ∈ fill, ∃ i, i < L.cap ∧ w.1 = L.slot i) {k : Nat} (hk : k ≤ fill.length) :
    L.Wf P (replay ((L.transaction d fill hc h₀).take k) d) ∧
      ∀ x, ¬ L.area x → L.recovered (replay ((L.transaction d fill hc h₀).take k) d) x = d x := by
  rw [Layout.transaction, List.take_append_of_le_length hk]
  have htake : ∀ w ∈ fill.take k, ∃ i, i < L.cap ∧ w.1 = L.slot i :=
    fun w hw => hfill w (List.mem_of_mem_take hw)
  obtain ⟨hh, hhome⟩ := Layout.replay_slots (d := d) htake
  have hclean : L.Clean (replay (fill.take k) d) := by
    rw [Layout.Clean, hh]
    exact h
  rw [hclean.recovered_eq]
  refine ⟨hclean.wf ?_, hhome⟩
  intro x hx
  rw [hhome x hx]
  exact hP x hx

/-- A crash after the header is written: the store recovers to the end of the
transaction. -/
theorem Layout.crash_after (hwf : L.Wf P (Function.update (replay fill d) L.header hc))
    (hclean : L.count h₀ = 0) {k : Nat} (hk : fill.length < k) :
    L.Wf P (replay ((L.transaction d fill hc h₀).take k) d) ∧
      ∀ x, ¬ L.area x → L.recovered (replay ((L.transaction d fill hc h₀).take k) d) x =
        L.recovered (Function.update (replay fill d) L.header hc) x := by
  have htake : (L.transaction d fill hc h₀).take k = fill ++ (L.header, hc) ::
      (L.redo (Function.update (replay fill d) L.header hc) h₀).take (k - fill.length - 1) := by
    rw [Layout.transaction, List.take_append, List.take_of_length_le (by omega),
      show k - fill.length = (k - fill.length - 1) + 1 by omega, List.take_succ_cons,
      Nat.add_sub_cancel]
  rw [htake, replay_append, replay_cons]
  exact hwf.redo_crash hclean _

/-- A transaction that runs to its end. -/
theorem Layout.transaction_complete (hclean : L.count h₀ = 0) :
    L.Clean (replay (L.transaction d fill hc h₀) d) ∧
      ∀ x, ¬ L.area x → replay (L.transaction d fill hc h₀) d x =
        L.recovered (Function.update (replay fill d) L.header hc) x := by
  rw [Layout.transaction, replay_append, replay_cons]
  exact Layout.redo_complete hclean

/-- What a committed transaction recovers to: its entries over the store it
started from. -/
theorem Layout.recovered_commit (hfill : ∀ w ∈ fill, ∃ i, i < L.cap ∧ w.1 = L.slot i)
    {es : List (A × B)} (hes : L.entries (Function.update (replay fill d) L.header hc) = es)
    {x : A} (hx : ¬ L.area x) :
    L.recovered (Function.update (replay fill d) L.header hc) x = replay es d x := by
  rw [Layout.recovered, hes]
  apply replay_congr
  right
  rw [Function.update_of_ne (Layout.ne_header hx)]
  exact (Layout.replay_slots hfill).2 x hx

end Transaction

/-! ## Histories -/

/-- The number of writes that commit: those of a header that names entries. -/
def Layout.commits (L : Layout A B) (ws : List (A × B)) : Nat :=
  ws.countP fun w => decide (w.1 = L.header ∧ 0 < L.count w.2)

/-- `ws` are the writes of the transactions `Ts`, each a list of writes to home
addresses, on a store `d`.  A crash after any of them leaves a store that
recovers to what the committed transactions make of `d`. -/
structure Layout.History (L : Layout A B) (P : A → B → Prop) (d : A → B)
    (Ts : List (List (A × B))) (ws : List (A × B)) : Prop where
  wf : ∀ k, L.Wf P (replay (ws.take k) d)
  crash : ∀ k x, ¬ L.area x → L.recovered (replay (ws.take k) d) x =
    replay (Ts.take (L.commits (ws.take k))).flatten d x
  clean : L.Clean (replay ws d)
  commits_eq : L.commits ws = Ts.length

theorem Layout.commits_append (ws vs : List (A × B)) :
    L.commits (ws ++ vs) = L.commits ws + L.commits vs := List.countP_append

/-- Writes elsewhere than to the header commit nothing. -/
theorem Layout.commits_of_ne {ws : List (A × B)} (h : ∀ w ∈ ws, w.1 ≠ L.header) :
    L.commits ws = 0 := by
  rw [Layout.commits, List.countP_eq_zero]
  intro w hw
  rw [decide_eq_true_eq]
  exact fun hc => h w hw hc.1

theorem Layout.commits_take_le (ws : List (A × B)) (k : Nat) :
    L.commits (ws.take k) ≤ L.commits ws := (List.take_sublist k ws).countP_le

/-- The home addresses at the end of a history. -/
theorem Layout.History.home {d : A → B} {Ts : List (List (A × B))} {ws : List (A × B)}
    (h : L.History P d Ts ws) {x : A} (hx : ¬ L.area x) :
    replay ws d x = replay Ts.flatten d x := by
  have hc := h.crash ws.length x hx
  rw [List.take_length, h.clean.recovered_eq, h.commits_eq, List.take_length] at hc
  exact hc

theorem Layout.Clean.history_nil {d : A → B} (h : L.Clean d)
    (hP : ∀ x, ¬ L.area x → P x (d x)) : L.History P d [] [] where
  wf k := by
    rw [List.take_nil]
    exact h.wf hP
  crash k x hx := by
    rw [List.take_nil, replay_nil, h.recovered_eq, List.take_nil]
    rfl
  clean := h
  commits_eq := rfl

/-- Histories compose. -/
theorem Layout.History.append {d : A → B} {Ts Us : List (List (A × B))} {ws vs : List (A × B)}
    (h : L.History P d Ts ws) (g : L.History P (replay ws d) Us vs) :
    L.History P d (Ts ++ Us) (ws ++ vs) where
  wf k := by
    by_cases hk : k ≤ ws.length
    · rw [List.take_append_of_le_length hk]
      exact h.wf k
    · rw [List.take_append, List.take_of_length_le (by omega), replay_append]
      exact g.wf _
  crash k x hx := by
    by_cases hk : k ≤ ws.length
    · have hle : L.commits (ws.take k) ≤ Ts.length := by
        rw [← h.commits_eq]
        exact Layout.commits_take_le ws k
      rw [List.take_append_of_le_length hk, List.take_append_of_le_length hle]
      exact h.crash k x hx
    · rw [List.take_append, List.take_of_length_le (by omega), replay_append,
        g.crash _ x hx, Layout.commits_append, h.commits_eq, List.take_append,
        List.take_of_length_le (Nat.le_add_right _ _), Nat.add_sub_cancel_left,
        List.flatten_append, replay_append]
      exact replay_congr (Or.inr (h.home hx))
  clean := by
    rw [replay_append]
    exact g.clean
  commits_eq := by
    rw [Layout.commits_append, h.commits_eq, g.commits_eq, List.length_append]

/-- The writes of recovery commit nothing. -/
theorem Layout.Wf.commits_redo {d : A → B} (h : L.Wf P d) {h₀ : B} (hclean : L.count h₀ = 0) :
    L.commits (L.redo d h₀) = 0 := by
  rw [Layout.redo, Layout.commits_append,
    Layout.commits_of_ne fun w hw => Layout.ne_header (h.home_of_mem hw), Nat.zero_add,
    Layout.commits, List.countP_eq_zero]
  intro w hw
  rw [List.mem_singleton.mp hw, decide_eq_true_eq]
  exact fun hc => Nat.lt_irrefl 0 (hclean ▸ hc.2)

/-- One transaction is a history: it commits with the write of its header.  `T`
is what the transaction does to the home addresses. -/
theorem Layout.Clean.history_transaction {d : A → B} {fill T : List (A × B)} {hc h₀ : B}
    (h : L.Clean d) (hP : ∀ x, ¬ L.area x → P x (d x))
    (hfill : ∀ w ∈ fill, ∃ i, i < L.cap ∧ w.1 = L.slot i)
    (hwf : L.Wf P (Function.update (replay fill d) L.header hc)) (hpos : 0 < L.count hc)
    (hT : ∀ e, replay (L.entries (Function.update (replay fill d) L.header hc)) e = replay T e)
    (hclean : L.count h₀ = 0) :
    L.History P d [T] (L.transaction d fill hc h₀) := by
  have hfill0 : ∀ k, L.commits (fill.take k) = 0 := by
    intro k
    apply Layout.commits_of_ne
    intro w hw
    obtain ⟨i, hi, hs⟩ := hfill w (List.mem_of_mem_take hw)
    rw [hs]
    exact L.slot_ne_header i hi
  have hcommit : ∀ ws : List (A × B), L.commits ((L.header, hc) :: ws) = L.commits ws + 1 :=
    fun ws => List.countP_cons_of_pos (decide_eq_true ⟨rfl, hpos⟩)
  have hredo := hwf.commits_redo hclean
  have hafter : ∀ k, fill.length < k → L.commits ((L.transaction d fill hc h₀).take k) = 1 := by
    intro k hk
    have htail := Layout.commits_take_le (L := L)
      (L.redo (Function.update (replay fill d) L.header hc) h₀) (k - fill.length - 1)
    rw [Layout.transaction, List.take_append, Layout.commits_append, hfill0,
      show k - fill.length = (k - fill.length - 1) + 1 by omega, List.take_succ_cons, hcommit]
    omega
  refine ⟨?_, ?_, ?_, ?_⟩
  · intro k
    by_cases hk : k ≤ fill.length
    · exact (h.crash_before hP hfill hk).1
    · exact (Layout.crash_after hwf hclean (by omega)).1
  · intro k x hx
    by_cases hk : k ≤ fill.length
    · have h0 : L.commits ((L.transaction d fill hc h₀).take k) = 0 := by
        rw [Layout.transaction, List.take_append_of_le_length hk]
        exact hfill0 k
      rw [(h.crash_before hP hfill hk).2 x hx, h0]
      rfl
    · rw [(Layout.crash_after hwf hclean (by omega)).2 x hx, hafter k (by omega),
        Layout.recovered_commit hfill rfl hx, hT]
      simp
  · exact (Layout.transaction_complete hclean).1
  · rw [Layout.transaction, Layout.commits_append, hcommit, hredo,
      ← List.take_length (l := fill), hfill0]
    rfl

end RedoLog
