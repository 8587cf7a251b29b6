import Xv6Arm.Bio.Moves

/-!
# The users of the buffers

Every step of the buffer cache keeps its invariant (`Inv.step`), and `b_init`
makes it hold.  So in every state of every run the list goes through each buffer
once, a sector is cached in one buffer, and a busy buffer is used by one process
(`sector_used_by_one`).  A process sleeps in `bget` only while another one uses
the sector it asks for (`sleeper_waits_for_user`), and the kernel stops only when
all buffers are in use or dirty (`stops_only_when_full`).
-/

namespace Xv6Arm.Bio

open Bytes Linked Circles Runs

variable {Pid : Type} [DecidableEq Pid] {s t : State Pid} {l : List (Fin NBUF)}
  {owner : Fin NBUF → Option Pid} {p : Pid} {b : Fin NBUF}

/-! ## Every step keeps the invariant -/

theorem Listed.of_links {c c' : Bcache} (h : Listed c l) (hl : c'.links = c.links) : Listed c' l :=
  ⟨hl ▸ h.ring, h.perm⟩

/-- The order of the list after a step. -/
def reorder (lab : Label Pid) (l : List (Fin NBUF)) : List (Fin NBUF) :=
  match lab with
  | .brelse _ b => b :: l.erase b
  | _ => l

theorem Moves.listed {lab : Label Pid} (hm : Moves s l lab t) (h : Listed s.cache l) :
    Listed t.cache (reorder lab l) := by
  cases hm with
  | release hpc hheld =>
    rename_i p b
    refine ⟨?_, (List.perm_cons_erase (h.mem b)).symm.trans h.perm⟩
    have hring := h.ring.moveToFront (List.mem_map_of_mem (f := Node.buf) (h.mem b))
    rw [← List.map_erase (fun _ _ => Node.buf.inj)] at hring
    exact hring
  | _ => exact h.of_links rfl

omit [DecidableEq Pid] in
theorem Owned.congr (h : Owned s owner) (hbuf : ∀ b, t.buf b = s.buf b)
    (hprocs : t.procs = s.procs) : Owned t owner := by
  obtain ⟨hb, hu, hn, hg, ha⟩ := h
  constructor <;> simp only [hbuf, hprocs] <;> assumption

/-- A process that gets no new buffer moves on. -/
theorem Owned.goto (h : Owned s owner) {pc : Pc}
    (hold : ∀ b, (s.procs p).pc ≠ .got b) (hgot : ∀ b, pc ≠ .got b)
    (hsleep : ∀ b dev sector, pc = .asleep b dev sector →
      (s.buf b).busy = true ∧ (s.buf b).dev = dev ∧ (s.buf b).sector = sector) :
    Owned (s.goto p pc) owner := by
  obtain ⟨hb, hu, hn, hg, ha⟩ := h
  constructor <;> simp only [State.goto, buf_setProc, procs_setProc, Proc.Uses] at * <;> grind

/-- `bget` gives a buffer that nobody uses. -/
theorem Owned.take (h : Owned s owner) {x : Buffer} (hold : ∀ b, (s.procs p).pc ≠ .got b)
    (hfree : (s.buf b).busy = false) (hx : x.busy = true) :
    Owned ((s.setBuf b x).goto p (.got b)) (Function.update owner b (some p)) := by
  obtain ⟨hb, hu, hn, hg, ha⟩ := h
  constructor <;>
    simp only [State.goto, buf_setProc, procs_setProc, buf_setBuf, procs_setBuf, Proc.Uses,
      Function.update_apply] at * <;> grind

/-- `bread` returns the buffer that `bget` gave. -/
theorem Owned.give (h : Owned s owner) (hpc : (s.procs p).pc = .got b) :
    Owned (s.give p b) owner := by
  obtain ⟨hb, hu, hn, hg, ha⟩ := h
  constructor <;> simp only [State.give, buf_setProc, procs_setProc, Proc.Uses] at * <;> grind

omit [DecidableEq Pid] in
/-- A buffer changes, but not whose it is and of which sector. -/
theorem Owned.setBuf (h : Owned s owner) {x : Buffer} (hbusy : x.busy = (s.buf b).busy)
    (hdev : x.dev = (s.buf b).dev) (hsector : x.sector = (s.buf b).sector) :
    Owned (s.setBuf b x) owner := by
  obtain ⟨hb, hu, hn, hg, ha⟩ := h
  constructor <;> simp only [buf_setBuf, procs_setBuf, Proc.Uses] at * <;> grind

theorem wakeup_asleep {q : Proc} {a : Fin NBUF} {dev sector : Word}
    (h : (q.wakeup b).pc = .asleep a dev sector) : a ≠ b ∧ q.pc = .asleep a dev sector := by
  unfold Proc.wakeup at h
  grind

theorem wakeup_got {q : Proc} {a : Fin NBUF} : (q.wakeup b).pc = .got a ↔ q.pc = .got a := by
  unfold Proc.wakeup
  grind

/-- `brelse` takes the buffer from its user and wakes all that wait for it. -/
theorem Owned.release (h : Owned s owner) (hpc : (s.procs p).pc = .out)
    (hheld : b ∈ (s.procs p).held) (links : Links Node) :
    Owned ((((s.setProc p { s.procs p with held := (s.procs p).held.erase b }).relink links).setBuf b
      { s.buf b with busy := false }).wakeup b) (Function.update owner b none) := by
  obtain ⟨hb, hu, hn, hg, ha⟩ := h
  have hself := (hu p b).mp (.inl hheld)
  constructor
  · simp only [buf_wakeup, buf_setBuf, buf_relink, buf_setProc, Function.update_apply]
    grind
  · simp only [Proc.Uses, procs_wakeup, procs_setBuf, procs_relink, procs_setProc, held_wakeup,
      wakeup_got, Function.update_apply] at *
    grind
  · simp only [procs_wakeup, procs_setBuf, procs_relink, procs_setProc, held_wakeup]
    grind
  · simp only [procs_wakeup, procs_setBuf, procs_relink, procs_setProc, held_wakeup, wakeup_got]
    grind
  · intro q a dev sector hq
    simp only [procs_wakeup, procs_setBuf, procs_relink, procs_setProc] at hq
    obtain ⟨hne, hq⟩ := wakeup_asleep hq
    simp only [buf_wakeup, buf_setBuf, buf_relink, buf_setProc, if_neg hne]
    grind

/-- The users of the buffers after a step. -/
theorem Moves.owned {lab : Label Pid} (hm : Moves s l lab t) (h : Owned s owner) :
    ∃ owner', Owned t owner' := by
  cases hm with
  | call hpc => exact ⟨_, h.goto (by simp [hpc]) (by simp) (by simp)⟩
  | wake hpc => exact ⟨_, h.goto (by simp [hpc]) (by simp) (by simp)⟩
  | hit hpc hdev hsector hfree => exact ⟨_, h.take (by simp [hpc]) hfree rfl⟩
  | sleep hpc hdev hsector hbusy =>
    exact ⟨_, h.goto (by simp [hpc]) (by simp) fun b dev sector heq => by
      cases heq
      exact ⟨hbusy, hdev, hsector⟩⟩
  | recycle hpc hnone hfree hlast =>
    exact ⟨_, h.take (by simp [hpc]) (free_iff.mp hfree).1 rfl⟩
  | full hpc hused => exact ⟨_, h.congr (fun _ => rfl) rfl⟩
  | cached hpc hvalid => exact ⟨_, h.give hpc⟩
  | read hpc hvalid hdev hsector =>
    refine ⟨_, Owned.give (Owned.setBuf h ?_ ?_ ?_) hpc⟩ <;> rfl
  | refused hpc hmsg => exact ⟨_, h.congr (fun _ => rfl) rfl⟩
  | store hpc hheld => exact ⟨_, h.setBuf rfl rfl rfl⟩
  | mark hpc hheld => exact ⟨_, h.setBuf rfl rfl rfl⟩
  | @write p b hpc hheld =>
    exact ⟨_, (h.setBuf (b := b) (x := { s.buf b with dirty := false }) rfl rfl rfl).congr
      (fun _ => rfl) rfl⟩
  | release hpc hheld => exact ⟨_, h.release hpc hheld _⟩

omit [DecidableEq Pid] in
theorem Sound.congr (h : Sound s) (hbuf : ∀ b, t.buf b = s.buf b)
    (hsize : t.drive.disksize = s.drive.disksize)
    (hheld : ∀ p b, b ∈ (t.procs p).held → b ∈ (s.procs p).held) : Sound t := by
  obtain ⟨hu, hd, hv, hh⟩ := h
  constructor <;> simp only [hbuf, hsize] <;> grind

omit [DecidableEq Pid] in
/-- A buffer changes, but not its sector. -/
theorem Sound.setBuf (h : Sound s) {x : Buffer} (hdev : x.dev = (s.buf b).dev)
    (hsector : x.sector = (s.buf b).sector) (hdirty : x.dirty = true → x.valid = true)
    (hvalid : x.valid = true → x.dev = 1 ∧ x.sector.toNat < s.drive.disksize)
    (hheld : ∀ p, b ∈ (s.procs p).held → x.valid = true) : Sound (s.setBuf b x) := by
  obtain ⟨hu, hd, hv, hh⟩ := h
  constructor <;> simp only [buf_setBuf, procs_setBuf, drive_setBuf] <;> grind

omit [DecidableEq Pid] in
/-- A buffer that nobody has is used for a sector that is not cached. -/
theorem Sound.recycle (h : Sound s) {x : Buffer} (hx : x.dirty = false ∧ x.valid = false)
    (hnone : ∀ a, s.cache.holds x.dev x.sector a = false) (hheld : ∀ p, b ∉ (s.procs p).held) :
    Sound (s.setBuf b x) := by
  have hnew : ∀ a, ¬ ((s.buf a).dev = x.dev ∧ (s.buf a).sector = x.sector) := fun a ha => by
    have := hnone a
    rw [holds_iff.mpr ha] at this
    cases this
  obtain ⟨hu, hd, hv, hh⟩ := h
  constructor <;> simp only [buf_setBuf, procs_setBuf, drive_setBuf] <;> grind

theorem Sound.give (h : Sound s) (hvalid : (s.buf b).valid = true) : Sound (s.give p b) := by
  obtain ⟨hu, hd, hv, hh⟩ := h
  constructor <;> simp only [State.give, buf_setProc, procs_setProc, drive_setProc] <;> grind

theorem Sound.goto (h : Sound s) (p : Pid) (pc : Pc) : Sound (s.goto p pc) :=
  h.congr (fun _ => rfl) rfl fun r b hr => by
    simp only [State.goto, procs_setProc] at hr
    split at hr
    · next heq => exact heq ▸ hr
    · exact hr

theorem Moves.sound {lab : Label Pid} (hm : Moves s l lab t) (h : Sound s) (ho : Owned s owner) :
    Sound t := by
  cases hm with
  | call hpc => exact h.goto _ _
  | wake hpc => exact h.goto _ _
  | hit hpc hdev hsector hfree =>
    refine Sound.goto ?_ _ _
    refine Sound.setBuf h ?_ ?_ (h.dirty _) (h.valid _) fun p => h.held p _ <;> rfl
  | sleep hpc hdev hsector hbusy => exact h.goto _ _
  | recycle hpc hnone hfree hlast =>
    refine Sound.goto (Sound.recycle h ⟨rfl, rfl⟩ hnone fun q hq => ?_) _ _
    have hbusy := (free_iff.mp hfree).1
    rw [ho.busy_of_held hq] at hbusy
    cases hbusy
  | full hpc hused => exact h.congr (fun _ => rfl) rfl fun _ _ => id
  | cached hpc hvalid => exact h.give hvalid
  | read hpc hvalid hdev hsector =>
    refine Sound.give ?_ (by simp)
    refine Sound.setBuf h ?_ ?_ (fun _ => ?_) (fun _ => ⟨hdev, hsector⟩) (fun _ _ => ?_) <;> rfl
  | refused hpc hmsg => exact h.congr (fun _ => rfl) rfl fun _ _ => id
  | store hpc hheld =>
    refine Sound.setBuf h ?_ ?_ (h.dirty _) (h.valid _) fun p => h.held p _ <;> rfl
  | mark hpc hheld =>
    have hvalid := h.held _ _ hheld
    refine Sound.setBuf h ?_ ?_ (fun _ => hvalid) (h.valid _) fun _ _ => hvalid <;> rfl
  | @write p b hpc hheld =>
    have hset : Sound (s.setBuf b { s.buf b with dirty := false }) := by
      refine Sound.setBuf h ?_ ?_ nofun (h.valid _) fun p => h.held p _ <;> rfl
    exact hset.congr (fun _ => rfl) rfl fun _ _ => id
  | @release p b hpc hheld =>
    have hset : Sound (s.setBuf b { s.buf b with busy := false }) := by
      refine Sound.setBuf h ?_ ?_ (h.dirty _) (h.valid _) fun p => h.held p _ <;> rfl
    refine hset.congr (fun _ => rfl) rfl fun q a ha => ?_
    simp only [procs_wakeup, procs_setBuf, procs_relink, procs_setProc, held_wakeup] at ha ⊢
    split at ha
    · next heq => exact heq ▸ List.mem_of_mem_erase ha
    · exact ha

/-- Every step keeps the invariant. -/
theorem Inv.step (h : Inv s l owner) {lab : Label Pid} (hs : step lab s = some t) :
    ∃ owner', Inv t (reorder lab l) owner' := by
  obtain ⟨-, hm⟩ := h.moves hs
  obtain ⟨owner', ho⟩ := hm.owned h.owned
  exact ⟨owner', hm.listed h.listed, ho, hm.sound h.sound h.owned⟩

/-! ## The start -/

theorem listed_foldl_insert (bs : List (Fin NBUF)) {l : List (Fin NBUF)} {c : Bcache}
    (hr : Ring c.links .head (l.map .buf)) (hn : (bs.reverse ++ l).Nodup) :
    Ring (bs.foldl Bcache.insert c).links .head ((bs.reverse ++ l).map .buf) := by
  induction bs generalizing l c with
  | nil => exact hr
  | cons b bs ih =>
    rw [List.reverse_cons, List.append_assoc, List.singleton_append] at hn ⊢
    have hb : b ∉ l := (List.nodup_cons.mp hn.of_append_right).1
    refine ih (hr.push fun hmem => ?_) hn
    obtain ⟨a, ha, heq⟩ := List.mem_map.mp ((List.mem_cons.mp hmem).resolve_left nofun)
    exact hb (Node.buf.inj heq ▸ ha)

/-- `b_init` sets the device of every buffer and no flag. -/
theorem buf_foldl_insert {bs : List (Fin NBUF)} {c : Bcache} (b : Fin NBUF) :
    (bs.foldl Bcache.insert c).buf b =
      { c.buf b with dev := if b ∈ bs then -1 else (c.buf b).dev } := by
  induction bs generalizing c with
  | nil => rfl
  | cons a bs ih =>
    rw [List.foldl_cons, ih]
    by_cases hab : b = a
    · subst hab
      simp [Bcache.insert, Bcache.set]
    · simp [Bcache.insert, Bcache.set, hab]

omit [DecidableEq Pid] in
theorem Initial.inv (h : Initial s) : Inv s (List.finRange NBUF).reverse fun _ => none := by
  obtain ⟨c, hflags, hc⟩ := h.cache
  have hbuf : ∀ b, s.buf b = { c.buf b with dev := -1 } := fun b => by
    rw [State.buf, hc, bInit, buf_foldl_insert, if_pos (List.mem_finRange b)]
  refine ⟨⟨?_, List.reverse_perm _⟩, ⟨?_, ?_, ?_, ?_, ?_⟩, ⟨?_, ?_, ?_, ?_⟩⟩
  · rw [hc]
    have hring := listed_foldl_insert (List.finRange NBUF) (l := [])
      (c := ⟨⟨Function.update c.links.next .head .head, Function.update c.links.prev .head .head⟩,
        c.buf⟩)
      (.nil (by simp) (by simp))
      (by rw [List.append_nil]; exact List.nodup_reverse.mpr (List.nodup_finRange NBUF))
    rwa [List.append_nil] at hring
  all_goals simp [Proc.Uses, h.procs, hbuf, hflags]

/-- In every state of every run. -/
theorem inv_of_run {tr : List (State Pid × Label Pid)} (hs : Initial s)
    (hr : Run step s tr t) : ∃ l owner, Inv t l owner := by
  refine hr.invariant_last (I := fun s => ∃ l owner, Inv s l owner) ?_ ⟨_, _, hs.inv⟩
  rintro s lab t ⟨l, owner, hinv⟩ hstep
  exact ⟨_, hinv.step hstep⟩

/-- Two processes and a disk of 16 sectors, after `b_init`. -/
def twoProcs : State Bool where
  cache := bInit ⟨⟨fun _ => .head, fun _ => .head⟩,
    fun _ => ⟨false, false, false, 0, 0, zeroBuf 512⟩⟩
  drive := ⟨16, fun _ => zeroBuf 512⟩
  procs := fun _ => ⟨.out, []⟩
  halt := none

/-- The first buffer. -/
def buf₀ : Fin NBUF := ⟨0, by decide⟩

/-- The second buffer. -/
def buf₁ : Fin NBUF := ⟨1, by decide⟩

theorem twoProcs_initial : Initial twoProcs where
  cache := ⟨_, fun _ => ⟨rfl, rfl, rfl⟩, rfl⟩
  procs := fun _ => rfl
  halt := rfl

/-- A run of the two processes, by its labels. -/
theorem run_twoProcs (Ok : State Bool → Label Bool → Prop) [∀ s l, Decidable (Ok s l)]
    (ls : List (Label Bool)) {β : Type} {f : State Bool → β} {x : β}
    (h : (exec (fun l s => if Ok s l then step l s else none) ls twoProcs).map f = some x) :
    ∃ tr t, Run step twoProcs tr t ∧ EveryStep Ok tr ∧ f t = x := by
  obtain ⟨t, ht, hf⟩ := Option.map_eq_some_iff.mp h
  obtain ⟨tr, hr, hok, -⟩ := run_of_exec_if ht
  exact ⟨tr, t, hr, hok, hf⟩

/-- The steps of a `bread` that does not have to wait. -/
def breadSteps (p : Pid) (k : Word) : List (Label Pid) := [.call p 1 k, .pass p, .fetch p]

/-- A buffer is used by one process, and a sector is in one buffer. -/
theorem sector_used_by_one {tr : List (State Pid × Label Pid)} (hs : Initial s)
    (hr : Run step s tr t) :
    (∃ l : List (Fin NBUF),
      Ring t.cache.links .head (l.map .buf) ∧ l.Perm (List.finRange NBUF)) ∧
    (∀ b, (t.buf b).busy = true ↔ ∃ p, (t.procs p).Uses b) ∧
    (∀ p q b, (t.procs p).Uses b → (t.procs q).Uses b → p = q) ∧
    (∀ p q a b, a ∈ (t.procs p).held → b ∈ (t.procs q).held → (t.buf a).dev = (t.buf b).dev →
      (t.buf a).sector = (t.buf b).sector → p = q ∧ a = b) := by
  obtain ⟨l, owner, hlisted, howned, hsound⟩ := inv_of_run hs hr
  have hone : ∀ p q b, (t.procs p).Uses b → (t.procs q).Uses b → p = q := fun p q b hp hq => by
    have hp' := (howned.uses p b).mp hp
    rw [(howned.uses q b).mp hq] at hp'
    exact (Option.some.inj hp').symm
  refine ⟨⟨l, hlisted.ring, hlisted.perm⟩, fun b => ?_, hone, ?_⟩
  · rw [howned.busy, Option.isSome_iff_exists]
    exact exists_congr fun p => (howned.uses p b).symm
  · intro p q a b ha hb hdev hsector
    have hdisk := (hsound.valid a (hsound.held p a ha)).1
    obtain rfl := hsound.unique a b (by rw [hdisk]; decide) hdev hsector
    exact ⟨hone p q a (.inl ha) (.inl hb), rfl⟩

theorem sector_used_by_one_twoProcs : ∃ (tr : _) (t : State Bool), Run step twoProcs tr t ∧
    (t.procs true).held = [buf₀] ∧
      ∀ p, (t.procs p).Uses buf₀ → p = true := by
  obtain ⟨tr, t, hr, -, hheld⟩ := run_twoProcs (fun _ _ => True) (breadSteps true 5)
    (f := fun t => (t.procs true).held) (x := [buf₀]) (by decide +kernel)
  refine ⟨tr, t, hr, hheld, fun p hp => ?_⟩
  exact (sector_used_by_one twoProcs_initial hr).2.2.1 p true _ hp (.inl (hheld ▸ List.mem_cons_self))

/-! ## Requests -/

/-- The sector a process looks for in `bget`. -/
def Pc.asks : Pc → Option (Word × Word)
  | .loop dev sector => some (dev, sector)
  | .asleep _ dev sector => some (dev, sector)
  | _ => none

theorem asks_wakeup (q : Proc) : (q.wakeup b).pc.asks = q.pc.asks := by
  unfold Proc.wakeup
  split
  · next hpc =>
    split
    · rw [hpc]
      rfl
    · rfl
  · rfl

/-- A request comes from a call of `bread`, and gets the process no buffer. -/
theorem Moves.asks {lab : Label Pid} (hm : Moves s l lab t) {k : Word × Word}
    (h : (t.procs p).pc.asks = some k) :
    ((s.procs p).pc.asks = some k ∨ lab = .call p k.1 k.2) ∧
      ∀ b ∈ (t.procs p).held, b ∈ (s.procs p).held := by
  cases hm with
  | release hpc hheld =>
    simp only [procs_wakeup, asks_wakeup, held_wakeup, procs_setBuf, procs_relink,
      procs_setProc] at h ⊢
    grind
  | write hpc hheld => exact ⟨.inl h, fun _ => id⟩
  | mark hpc hheld => exact ⟨.inl h, fun _ => id⟩
  | store hpc hheld => exact ⟨.inl h, fun _ => id⟩
  | refused hpc hmsg => exact ⟨.inl h, fun _ => id⟩
  | full hpc hused => exact ⟨.inl h, fun _ => id⟩
  | _ =>
    simp only [procs_goto, procs_give, procs_setBuf] at h ⊢
    grind [Pc.asks]

/-- A busy buffer stays with its sector. -/
theorem Moves.same_sector {lab : Label Pid} (hm : Moves s l lab t) (hb : (s.buf b).busy = true) :
    (t.buf b).dev = (s.buf b).dev ∧ (t.buf b).sector = (s.buf b).sector := by
  cases hm with
  | recycle hpc hnone hfree hlast =>
    have hidle := (free_iff.mp hfree).1
    simp only [buf_goto, buf_setBuf]
    grind
  | _ =>
    simp only [buf_goto, buf_give, buf_stop, buf_setProc, buf_setBuf, buf_wakeup, buf_relink,
      buf_setDrive, and_self] <;> grind

/-! ## Sleepers -/

/-- A process asks only for a sector that it does not have. -/
def Fresh (s : State Pid) : Label Pid → Prop
  | .call p dev sector =>
    ∀ b ∈ (s.procs p).held, ¬ ((s.buf b).dev = dev ∧ (s.buf b).sector = sector)
  | _ => True

instance (s : State Pid) : DecidablePred (Fresh s) := fun lab =>
  match lab with
  | .call p dev sector => inferInstanceAs
      (Decidable (∀ b ∈ (s.procs p).held, ¬ ((s.buf b).dev = dev ∧ (s.buf b).sector = sector)))
  | .pass _ | .fetch _ | .wake _ | .store _ _ _ | .mark _ _ | .bwrite _ _ | .brelse _ _ =>
    .isTrue trivial

/-- A process has no buffer of the sector it asks for. -/
def Elsewhere (s : State Pid) : Prop :=
  ∀ p k, (s.procs p).pc.asks = some k →
    ∀ b ∈ (s.procs p).held, ¬ ((s.buf b).dev = k.1 ∧ (s.buf b).sector = k.2)

theorem Moves.elsewhere {lab : Label Pid} (hm : Moves s l lab t) (h : Elsewhere s)
    (ho : Owned s owner) (hf : Fresh s lab) : Elsewhere t := by
  intro p k hk b hb
  obtain ⟨hasks, hheld⟩ := hm.asks hk
  have hb := hheld b hb
  obtain ⟨hdev, hsector⟩ := hm.same_sector (ho.busy_of_held hb)
  rw [hdev, hsector]
  rcases hasks with hasks | rfl
  · exact h p k hasks b hb
  · exact hf b hb

/-- A process sleeps in `bget` only while another process uses the sector that it
asks for. -/
theorem sleeper_waits_for_user {tr : List (State Pid × Label Pid)} (hs : Initial s)
    (hr : Run step s tr t) (hfresh : EveryStep Fresh tr) {dev sector : Word}
    (hpc : (t.procs p).pc = .asleep b dev sector) :
    ∃ q, q ≠ p ∧ (t.procs q).Uses b ∧ (t.buf b).dev = dev ∧ (t.buf b).sector = sector := by
  have hinv := hr.invariant_of (I := fun s => (∃ l owner, Inv s l owner) ∧ Elsewhere s)
    (fun s lab t ⟨⟨l, owner, h⟩, he⟩ hok hst =>
      ⟨⟨_, h.step hst⟩, (h.moves hst).2.elsewhere he h.owned hok⟩)
    ⟨⟨_, _, hs.inv⟩, fun p k hk => by rw [hs.procs] at hk; cases hk⟩ hfresh
  obtain ⟨⟨l, owner, h⟩, helse⟩ := hinv.2
  obtain ⟨hbusy, hdev, hsector⟩ := h.owned.asleep p b dev sector hpc
  rw [h.owned.busy, Option.isSome_iff_exists] at hbusy
  obtain ⟨q, hq⟩ := hbusy
  have huses := (h.owned.uses q b).mpr hq
  refine ⟨q, ?_, huses, hdev, hsector⟩
  rintro rfl
  rcases huses with hheld | hgot
  · exact helse q (dev, sector) (by rw [hpc]; rfl) b hheld ⟨hdev, hsector⟩
  · rw [hpc] at hgot
    cases hgot

theorem sleeper_waits_for_user_twoProcs : ∃ (tr : _) (t : State Bool), Run step twoProcs tr t ∧
    (t.procs true).pc = .asleep buf₀ 1 5 ∧
      ∃ q, q ≠ true ∧ (t.procs q).Uses buf₀ := by
  obtain ⟨tr, t, hr, hfresh, hpc⟩ := run_twoProcs Fresh
    (breadSteps false 5 ++ [.call true 1 5, .pass true])
    (f := fun t => (t.procs true).pc) (x := .asleep buf₀ 1 5) (by decide +kernel)
  obtain ⟨q, hne, huses, -⟩ := sleeper_waits_for_user twoProcs_initial hr hfresh hpc
  exact ⟨tr, t, hr, hpc, q, hne, huses⟩

/-! ## Stops -/

/-- A process asks only for sectors of the disk. -/
def OnDisk (s : State Pid) : Label Pid → Prop
  | .call _ dev sector => dev = 1 ∧ sector.toNat < s.drive.disksize
  | _ => True

instance (s : State Pid) : DecidablePred (OnDisk s) := fun lab =>
  match lab with
  | .call _ dev sector => inferInstanceAs (Decidable (dev = 1 ∧ sector.toNat < s.drive.disksize))
  | .pass _ | .fetch _ | .wake _ | .store _ _ _ | .mark _ _ | .bwrite _ _ | .brelse _ _ =>
    .isTrue trivial

/-- What processes look for in `bread` is on the disk. -/
structure Asked (s : State Pid) : Prop where
  asks : ∀ p k, (s.procs p).pc.asks = some k → k.1 = 1 ∧ k.2.toNat < s.drive.disksize
  got : ∀ p b, (s.procs p).pc = .got b →
    (s.buf b).dev = 1 ∧ (s.buf b).sector.toNat < s.drive.disksize
  /-- The system has not stopped, or there are no buffers. -/
  halt : ∀ h, s.halt = some h → h = .panic "bget: no buffers" ∧ ∀ b, s.cache.free b = false

theorem Moves.disksize {lab : Label Pid} (hm : Moves s l lab t) :
    t.drive.disksize = s.drive.disksize := by
  cases hm <;> rfl

/-- `bget` has given a buffer of the sector that the process asked for. -/
theorem Moves.got {lab : Label Pid} (hm : Moves s l lab t)
    (h : (t.procs p).pc = .got b) :
    (s.procs p).pc = .got b ∨
      (s.procs p).pc.asks = some ((t.buf b).dev, (t.buf b).sector) := by
  cases hm with
  | release hpc hheld =>
    simp only [procs_wakeup, wakeup_got, procs_setBuf, procs_relink, procs_setProc] at h
    grind
  | write hpc hheld => exact .inl h
  | mark hpc hheld => exact .inl h
  | store hpc hheld => exact .inl h
  | refused hpc hmsg => exact .inl h
  | full hpc hused => exact .inl h
  | _ =>
    simp only [procs_goto, procs_give, procs_setBuf, buf_goto, buf_setBuf] at h ⊢
    grind [Pc.asks]

theorem Moves.asked {lab : Label Pid} (hm : Moves s l lab t) (h : Asked s) (ho : Owned s owner)
    (hok : OnDisk s lab) (hhalt : s.halt = none) : Asked t := by
  refine ⟨fun p k hk => ?_, fun p b hpc => ?_, fun r hr => ?_⟩
  · rw [hm.disksize]
    rcases (hm.asks hk).1 with hasks | rfl
    · exact h.asks p k hasks
    · exact hok
  · rw [hm.disksize]
    rcases hm.got hpc with hpc | hasks
    · obtain ⟨hdev, hsector⟩ := hm.same_sector (ho.busy_of_got hpc)
      rw [hdev, hsector]
      exact h.got p b hpc
    · exact h.asks p _ hasks
  · cases hm with
    | full hpc hused =>
      cases hr
      exact ⟨rfl, hused⟩
    | refused hpc hmsg =>
      obtain ⟨hdev, hsector⟩ := h.got _ _ hpc
      rcases hmsg with ⟨hne, -⟩ | ⟨-, hle, -⟩
      · exact absurd hdev hne
      · exact absurd hsector (Nat.not_lt.mpr hle)
    | _ =>
      exact absurd (hhalt.symm.trans hr) (by simp)

/-- As long as processes ask for sectors of the disk, the system stops only when
`bget` needs a buffer and every buffer is in use or dirty. -/
theorem stops_only_when_full {tr : List (State Pid × Label Pid)} (hs : Initial s)
    (hr : Run step s tr t) (hdisk : EveryStep OnDisk tr) {r : Halt} (hhalt : t.halt = some r) :
    r = .panic "bget: no buffers" ∧ ∀ b, (t.buf b).busy = true ∨ (t.buf b).dirty = true := by
  have hinv := hr.invariant_of (I := fun s => (∃ l owner, Inv s l owner) ∧ Asked s)
    (fun s lab t ⟨⟨l, owner, h⟩, ha⟩ hok hst =>
      ⟨⟨_, h.step hst⟩, (h.moves hst).2.asked ha h.owned hok (h.moves hst).1⟩)
    ⟨⟨_, _, hs.inv⟩, by simp [hs.procs, Pc.asks], by simp [hs.procs], by simp [hs.halt]⟩ hdisk
  obtain ⟨hpanic, hused⟩ := hinv.2.2.halt r hhalt
  refine ⟨hpanic, fun b => ?_⟩
  by_contra hnot
  have hfree : t.cache.free b = true := free_iff.mpr (by simpa using hnot)
  rw [hused b] at hfree
  cases hfree

theorem stops_only_when_full_twoProcs : ∃ (tr : _) (t : State Bool), Run step twoProcs tr t ∧
    t.halt = some (.panic "bget: no buffers") ∧
      ∀ b, (t.buf b).busy = true ∨ (t.buf b).dirty = true := by
  obtain ⟨tr, t, hr, hdisk, hhalt⟩ := run_twoProcs OnDisk
    ((List.range NBUF).flatMap (fun k => breadSteps false (BitVec.ofNat 32 k)) ++
      [.call true 1 12, .pass true])
    (f := fun t => t.halt) (x := some (.panic "bget: no buffers")) (by decide +kernel)
  exact ⟨tr, t, hr, hhalt, (stops_only_when_full twoProcs_initial hr hdisk hhalt).2⟩

end Xv6Arm.Bio
