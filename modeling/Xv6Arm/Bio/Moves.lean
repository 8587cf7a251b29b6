import Xv6Arm.Bio.Model

/-!
# The steps of the buffer cache

`Listed c l` says that the links of the cache run through all buffers, in the
order of `l`.  Then the searches of `bget` end, and they find what `List.find?`
finds in `l`, so that a pass of its loop has the four outcomes of `Found`.

`Inv` is the invariant of the system: the list, the user of every busy buffer
(`Owned`) and the fields of the buffers (`Sound`).  `Moves` says once what a
step can do in a state with the invariant (`Inv.moves`); the later modules argue
from it.
-/

namespace Xv6Arm.Bio

open Bytes Linked Circles

variable {Pid : Type} [DecidableEq Pid]

/-! ## The list -/

/-- The links run through all buffers, in the order of `l`. -/
structure Listed (c : Bcache) (l : List (Fin NBUF)) : Prop where
  ring : Ring c.links .head (l.map .buf)
  perm : l.Perm (List.finRange NBUF)

section Listed

variable {c : Bcache} {l : List (Fin NBUF)}

theorem Listed.mem (h : Listed c l) (b : Fin NBUF) : b ∈ l :=
  h.perm.mem_iff.mpr (List.mem_finRange b)

theorem Listed.nodup (h : Listed c l) : l.Nodup :=
  h.perm.nodup_iff.mpr (List.nodup_finRange NBUF)

theorem Listed.length (h : Listed c l) : l.length = NBUF := by
  rw [h.perm.length_eq, List.length_finRange]

/-- The node of a search result. -/
def Node.ofOption : Option (Fin NBUF) → Node
  | some b => .buf b
  | none => .head

theorem getD_find_map (p : Fin NBUF → Bool) (l : List (Fin NBUF)) :
    ((l.map Node.buf).find? (Node.test p)).getD .head =
      .ofOption (l.find? p) := by
  rw [List.find?_map]
  show (Option.map Node.buf (l.find? p)).getD .head = _
  cases l.find? p <;> rfl

theorem Listed.scan_next (h : Listed c l) (p : Fin NBUF → Bool) :
    scan c.links.next p = some (.ofOption (l.find? p)) := by
  rw [scan, h.ring.walk_next _ (by rw [List.length_map, h.length]; exact Nat.lt_succ_self _),
    getD_find_map]

theorem Listed.scan_prev (h : Listed c l) (p : Fin NBUF → Bool) :
    scan c.links.prev p = some (.ofOption (l.reverse.find? p)) := by
  rw [scan, h.ring.walk_prev _ (by rw [List.length_map, h.length]; exact Nat.lt_succ_self _),
    ← List.map_reverse, getD_find_map]

/-- What a pass of `bget` finds. -/
inductive Found (c : Bcache) (l : List (Fin NBUF)) (dev sector : Word) : Pass → Prop
  | hit (b : Fin NBUF) (hb : c.holds dev sector b = true) (hfree : (c.buf b).busy = false) :
      Found c l dev sector (.hit b)
  | sleep (b : Fin NBUF) (hb : c.holds dev sector b = true) (hbusy : (c.buf b).busy = true) :
      Found c l dev sector (.sleep b)
  | recycle (b : Fin NBUF) (hnone : ∀ a, c.holds dev sector a = false) (hfree : c.free b = true)
      (hlast : ∀ a, c.free a = true → a ≠ b → l.idxOf a < l.idxOf b) :
      Found c l dev sector (.recycle b)
  | noBuffers (hnone : ∀ a, c.holds dev sector a = false) (hused : ∀ a, c.free a = false) :
      Found c l dev sector .noBuffers

/-- The last element with `p` stands behind all others with `p`. -/
theorem idxOf_lt_of_find_reverse {p : Fin NBUF → Bool} {b : Fin NBUF} (hl : l.Nodup)
    (hfind : l.reverse.find? p = some b) {a : Fin NBUF} (ha : a ∈ l) (hp : p a = true)
    (hne : a ≠ b) : l.idxOf a < l.idxOf b := by
  obtain ⟨hb, u, v, huv, hu⟩ := List.find?_eq_some_iff_append.mp hfind
  obtain rfl : l = v.reverse ++ b :: u.reverse := by
    rw [← List.reverse_reverse l, huv]
    simp
  grind

theorem Listed.pass (h : Listed c l) (dev sector : Word) :
    Found c l dev sector (c.pass dev sector) := by
  rw [Bcache.pass, h.scan_next, h.scan_prev]
  cases hf : l.find? (c.holds dev sector) with
  | some b =>
    show Found c l dev sector (if (c.buf b).busy then .sleep b else .hit b)
    have hb := List.find?_some hf
    cases hbusy : (c.buf b).busy with
    | true => exact .sleep b hb hbusy
    | false => exact .hit b hb hbusy
  | none =>
    have hnone : ∀ a, c.holds dev sector a = false := by
      simpa [h.mem] using hf
    cases hf' : l.reverse.find? c.free with
    | some b =>
      exact .recycle b hnone (List.find?_some hf') fun a ha hne =>
        idxOf_lt_of_find_reverse h.nodup hf' (h.mem a) ha hne
    | none => exact .noBuffers hnone (by simpa [h.mem] using hf')

end Listed

/-! ## The invariant -/

/-- The process may use the buffer. -/
def Proc.Uses (q : Proc) (b : Fin NBUF) : Prop := b ∈ q.held ∨ q.pc = .got b

/-- Who uses which buffer. -/
structure Owned (s : State Pid) (owner : Fin NBUF → Option Pid) : Prop where
  /-- A buffer is busy exactly when a process uses it. -/
  busy : ∀ b, (s.buf b).busy = (owner b).isSome
  /-- One process uses it. -/
  uses : ∀ p b, (s.procs p).Uses b ↔ owner b = some p
  /-- A process has a buffer once. -/
  nodup : ∀ p, (s.procs p).held.Nodup
  got : ∀ p b, (s.procs p).pc = .got b → b ∉ (s.procs p).held
  /-- A sleeper waits for the buffer of its sector, and some process uses it. -/
  asleep : ∀ p b dev sector, (s.procs p).pc = .asleep b dev sector →
    (s.buf b).busy = true ∧ (s.buf b).dev = dev ∧ (s.buf b).sector = sector

/-- What the fields of the buffers say. -/
structure Sound (s : State Pid) : Prop where
  /-- A sector is cached once. -/
  unique : ∀ a b, (s.buf a).dev ≠ -1 → (s.buf a).dev = (s.buf b).dev →
    (s.buf a).sector = (s.buf b).sector → a = b
  dirty : ∀ b, (s.buf b).dirty = true → (s.buf b).valid = true
  valid : ∀ b, (s.buf b).valid = true →
    (s.buf b).dev = 1 ∧ (s.buf b).sector.toNat < s.drive.disksize
  held : ∀ p b, b ∈ (s.procs p).held → (s.buf b).valid = true

/-- The invariant, for the order `l` of the list and the users of the buffers. -/
structure Inv (s : State Pid) (l : List (Fin NBUF)) (owner : Fin NBUF → Option Pid) : Prop where
  listed : Listed s.cache l
  owned : Owned s owner
  sound : Sound s

/-! ## What a step can do -/

/-- A request that the disk refuses, with its message. -/
def Refused (s : State Pid) (b : Fin NBUF) (msg : String) : Prop :=
  (s.buf b).dev ≠ 1 ∧ msg = "iderw: request not for disk 1" ∨
    (s.buf b).dev = 1 ∧ s.drive.disksize ≤ (s.buf b).sector.toNat ∧
      msg = "iderw: sector out of range"

/-- The steps of the system. -/
inductive Moves (s : State Pid) (l : List (Fin NBUF)) : Label Pid → State Pid → Prop
  | call {p : Pid} {dev sector : Word} (hpc : (s.procs p).pc = .out) :
      Moves s l (.call p dev sector) (s.goto p (.loop dev sector))
  | wake {p : Pid} {b : Fin NBUF} {dev sector : Word}
      (hpc : (s.procs p).pc = .asleep b dev sector) :
      Moves s l (.wake p) (s.goto p (.loop dev sector))
  | hit {p : Pid} {b : Fin NBUF} {dev sector : Word} (hpc : (s.procs p).pc = .loop dev sector)
      (hdev : (s.buf b).dev = dev) (hsector : (s.buf b).sector = sector)
      (hfree : (s.buf b).busy = false) :
      Moves s l (.pass p) ((s.setBuf b { s.buf b with busy := true }).goto p (.got b))
  | sleep {p : Pid} {b : Fin NBUF} {dev sector : Word} (hpc : (s.procs p).pc = .loop dev sector)
      (hdev : (s.buf b).dev = dev) (hsector : (s.buf b).sector = sector)
      (hbusy : (s.buf b).busy = true) :
      Moves s l (.pass p) (s.goto p (.asleep b dev sector))
  | recycle {p : Pid} {b : Fin NBUF} {dev sector : Word}
      (hpc : (s.procs p).pc = .loop dev sector)
      (hnone : ∀ a, s.cache.holds dev sector a = false) (hfree : s.cache.free b = true)
      (hlast : ∀ a, s.cache.free a = true → a ≠ b → l.idxOf a < l.idxOf b) :
      Moves s l (.pass p)
        ((s.setBuf b { s.buf b with
          dev := dev, sector := sector, busy := true, valid := false, dirty := false }).goto p
            (.got b))
  | full {p : Pid} {dev sector : Word} (hpc : (s.procs p).pc = .loop dev sector)
      (hused : ∀ a, s.cache.free a = false) :
      Moves s l (.pass p) (s.stop (.panic "bget: no buffers"))
  | cached {p : Pid} {b : Fin NBUF} (hpc : (s.procs p).pc = .got b)
      (hvalid : (s.buf b).valid = true) : Moves s l (.fetch p) (s.give p b)
  | read {p : Pid} {b : Fin NBUF} (hpc : (s.procs p).pc = .got b)
      (hvalid : (s.buf b).valid = false) (hdev : (s.buf b).dev = 1)
      (hsector : (s.buf b).sector.toNat < s.drive.disksize) :
      Moves s l (.fetch p)
        ((s.setBuf b { s.buf b with
          data := s.drive.memdisk (s.buf b).sector, valid := true }).give p b)
  | refused {p : Pid} {b : Fin NBUF} {msg : String} (hpc : (s.procs p).pc = .got b)
      (hmsg : Refused s b msg) : Moves s l (.fetch p) (s.stop (.panic msg))
  | store {p : Pid} {b : Fin NBUF} {data : Block} (hpc : (s.procs p).pc = .out)
      (hheld : b ∈ (s.procs p).held) :
      Moves s l (.store p b data) (s.setBuf b { s.buf b with data := data })
  | mark {p : Pid} {b : Fin NBUF} (hpc : (s.procs p).pc = .out) (hheld : b ∈ (s.procs p).held) :
      Moves s l (.mark p b) (s.setBuf b { s.buf b with dirty := true })
  | write {p : Pid} {b : Fin NBUF} (hpc : (s.procs p).pc = .out) (hheld : b ∈ (s.procs p).held) :
      Moves s l (.bwrite p b)
        ((s.setBuf b { s.buf b with dirty := false }).setDrive
          { s.drive with
            memdisk := Function.update s.drive.memdisk (s.buf b).sector (s.buf b).data })
  | release {p : Pid} {b : Fin NBUF} (hpc : (s.procs p).pc = .out)
      (hheld : b ∈ (s.procs p).held) :
      Moves s l (.brelse p b)
        ((((s.setProc p { s.procs p with held := (s.procs p).held.erase b }).relink
          ((s.cache.links.unlink (.buf b)).push .head (.buf b))).setBuf b
            { s.buf b with busy := false }).wakeup b)

variable {s t : State Pid} {l : List (Fin NBUF)} {owner : Fin NBUF → Option Pid} {p : Pid}
  {b : Fin NBUF}

theorem holds_iff {c : Bcache} {dev sector : Word} :
    c.holds dev sector b = true ↔ (c.buf b).dev = dev ∧ (c.buf b).sector = sector := by
  rw [Bcache.holds, Bool.and_eq_true, beq_iff_eq, beq_iff_eq]

omit [DecidableEq Pid] in
theorem free_iff : s.cache.free b = true ↔ (s.buf b).busy = false ∧ (s.buf b).dirty = false := by
  rw [Bcache.free, Bool.and_eq_true, Bool.not_eq_true', Bool.not_eq_true', State.buf]

omit [DecidableEq Pid] in
theorem Owned.busy_of_held (h : Owned s owner) (hb : b ∈ (s.procs p).held) :
    (s.buf b).busy = true := by
  rw [h.busy, (h.uses p b).mp (.inl hb)]
  rfl

omit [DecidableEq Pid] in
theorem Owned.busy_of_got (h : Owned s owner) (hb : (s.procs p).pc = .got b) :
    (s.buf b).busy = true := by
  rw [h.busy, (h.uses p b).mp (.inr hb)]
  rfl

omit [DecidableEq Pid] in
theorem Sound.unique_valid (h : Sound s) {a b : Fin NBUF} (ha : (s.buf a).valid = true)
    (hb : (s.buf b).dev = 1) (hsector : (s.buf a).sector = (s.buf b).sector) : a = b := by
  have hdev := (h.valid a ha).1
  exact h.unique a b (by rw [hdev]; decide) (hdev.trans hb.symm) hsector

theorem Inv.runPass (h : Inv s l owner) {dev sector : Word}
    (hpc : (s.procs p).pc = .loop dev sector) : Moves s l (.pass p) (runPass p dev sector s) := by
  have hfound := h.listed.pass dev sector
  unfold Bio.runPass
  generalize s.cache.pass dev sector = r at hfound ⊢
  cases hfound with
  | hit b hb hfree =>
    obtain ⟨hdev, hsector⟩ := holds_iff.mp hb
    exact .hit hpc hdev hsector hfree
  | sleep b hb hbusy =>
    obtain ⟨hdev, hsector⟩ := holds_iff.mp hb
    exact .sleep hpc hdev hsector hbusy
  | recycle b hnone hfree hlast => exact .recycle hpc hnone hfree hlast
  | noBuffers hnone hused => exact .full hpc hused

theorem iderw_read {d : Drive} {x : Buffer} (hbusy : x.busy = true) (hvalid : x.valid = false)
    (hdirty : x.dirty = false) (hdev : x.dev = 1) (hsector : x.sector.toNat < d.disksize) :
    iderw d x = .ok (d, { x with data := d.memdisk x.sector, valid := true }) := by
  simp [iderw, hbusy, hvalid, hdirty, hdev, Nat.not_le.mpr hsector]

theorem iderw_write {d : Drive} {x : Buffer} (hbusy : x.busy = true) (hdirty : x.dirty = true)
    (hdev : x.dev = 1) (hsector : x.sector.toNat < d.disksize) :
    iderw d x = .ok ({ d with memdisk := Function.update d.memdisk x.sector x.data },
      { x with dirty := false, valid := true }) := by
  simp [iderw, hbusy, hdirty, hdev, Nat.not_le.mpr hsector]

theorem iderw_refused {d : Drive} {x : Buffer} (hbusy : x.busy = true) (hvalid : x.valid = false)
    (hbad : ¬ (x.dev = 1 ∧ x.sector.toNat < d.disksize)) :
    ∃ msg, iderw d x = .error msg ∧
      (x.dev ≠ 1 ∧ msg = "iderw: request not for disk 1" ∨
        x.dev = 1 ∧ d.disksize ≤ x.sector.toNat ∧ msg = "iderw: sector out of range") := by
  by_cases hdev : x.dev = 1
  · have hsector : d.disksize ≤ x.sector.toNat := Nat.le_of_not_lt fun hlt => hbad ⟨hdev, hlt⟩
    exact ⟨_, by simp [iderw, hbusy, hvalid, hdev, hsector], .inr ⟨hdev, hsector, rfl⟩⟩
  · refine ⟨_, ?_, .inl ⟨hdev, rfl⟩⟩
    rw [iderw, hbusy, hvalid, if_pos hdev]
    rfl

theorem Inv.finishRead (h : Inv s l owner) (hpc : (s.procs p).pc = .got b) :
    Moves s l (.fetch p) (finishRead p b s) := by
  unfold Bio.finishRead
  have hbusy := h.owned.busy_of_got hpc
  cases hvalid : (s.buf b).valid with
  | true => exact .cached hpc hvalid
  | false =>
    have hdirty : (s.buf b).dirty = false := by
      by_contra hd
      rw [h.sound.dirty b (by simpa using hd)] at hvalid
      cases hvalid
    rw [if_neg Bool.false_ne_true, sync]
    by_cases hok : (s.buf b).dev = 1 ∧ (s.buf b).sector.toNat < s.drive.disksize
    · rw [iderw_read hbusy hvalid hdirty hok.1 hok.2]
      exact .read hpc hvalid hok.1 hok.2
    · obtain ⟨msg, hmsg, hbad⟩ := iderw_refused hbusy hvalid hok
      rw [hmsg]
      exact .refused hpc hbad

theorem Inv.bwrite (h : Inv s l owner) (hpc : (s.procs p).pc = .out)
    (hheld : b ∈ (s.procs p).held) : Moves s l (.bwrite p b) (bwrite b s) := by
  have hbusy := h.owned.busy_of_held hheld
  have hvalid := h.sound.held p b hheld
  obtain ⟨hdev, hsector⟩ := h.sound.valid b hvalid
  have hmove := Moves.write (l := l) hpc hheld
  have hide := iderw_write (d := s.drive) (x := { s.buf b with dirty := true }) hbusy rfl hdev
    hsector
  rw [Bio.bwrite, hbusy, Bool.not_true, if_neg Bool.false_ne_true]
  simp only [sync, buf_setBuf, if_pos, drive_setBuf, setBuf_setBuf, id, hvalid] at hide hmove ⊢
  rw [hide]
  exact hmove

theorem Inv.brelse (h : Inv s l owner) (hpc : (s.procs p).pc = .out)
    (hheld : b ∈ (s.procs p).held) :
    Moves s l (.brelse p b)
      (brelse b (s.setProc p { s.procs p with held := (s.procs p).held.erase b })) := by
  rw [Bio.brelse, buf_setProc, h.owned.busy_of_held hheld, Bool.not_true,
    if_neg Bool.false_ne_true]
  exact .release hpc hheld

/-- Every step is one of `Moves`. -/
theorem Inv.moves (h : Inv s l owner) {lab : Label Pid} (hs : step lab s = some t) :
    s.halt = none ∧ Moves s l lab t := by
  unfold step at hs
  split at hs
  · next hhalt =>
    refine ⟨hhalt, ?_⟩
    cases lab with
    | call p dev sector =>
      obtain ⟨hpc, ⟨⟩⟩ := Option.ite_none_right_eq_some.mp hs
      exact .call hpc
    | pass p =>
      simp only [act] at hs
      split at hs
      · next dev sector hpc =>
        cases hs
        exact h.runPass hpc
      · cases hs
    | fetch p =>
      simp only [act] at hs
      split at hs
      · next b hpc =>
        cases hs
        exact h.finishRead hpc
      · cases hs
    | wake p =>
      simp only [act] at hs
      split at hs
      · next b dev sector hpc =>
        cases hs
        exact .wake hpc
      · cases hs
    | store p b data =>
      obtain ⟨⟨hpc, hheld⟩, ⟨⟩⟩ := Option.ite_none_right_eq_some.mp hs
      exact .store hpc hheld
    | mark p b =>
      obtain ⟨⟨hpc, hheld⟩, ⟨⟩⟩ := Option.ite_none_right_eq_some.mp hs
      exact .mark hpc hheld
    | bwrite p b =>
      obtain ⟨⟨hpc, hheld⟩, ⟨⟩⟩ := Option.ite_none_right_eq_some.mp hs
      exact h.bwrite hpc hheld
    | brelse p b =>
      obtain ⟨⟨hpc, hheld⟩, ⟨⟩⟩ := Option.ite_none_right_eq_some.mp hs
      exact h.brelse hpc hheld
  · cases hs

end Xv6Arm.Bio
