import Xv6Arm.Bio.Owners
import Xv6Arm.Log.Model

/-!
# The cache of the log

The model of the log has a cache of its own, a function from sectors to buffers,
in which a `bread` may drop any clean buffers.  Here the buffers of `bio.c` are
seen as such a cache (`State.machine`).  A `bread`, a `bwrite`, a store with
`B_DIRTY` as in `log_write` and a `brelse` are then the operations that the log
is modelled with, or no operation at all.
-/

namespace Xv6Arm.Bio

open Bytes Linked Circles Runs

variable {Pid : Type} [DecidableEq Pid] {s t : State Pid} {l : List (Fin NBUF)}
  {owner : Fin NBUF → Option Pid} {p : Pid} {b : Fin NBUF} {m : Log.Machine} {j k : Word}

/-- The valid buffer of a sector. -/
def State.cached (s : State Pid) (k : Word) : Option (Fin NBUF) :=
  (List.finRange NBUF).find? fun b => (s.buf b).valid && (s.buf b).sector == k

/-- The machine of the log with the disk and the cache of the state. -/
def State.machine (s : State Pid) (m : Log.Machine) : Log.Machine :=
  { m with
    disk := s.drive.memdisk
    cache := fun k => (s.cached k).map fun b => ⟨(s.buf b).data, (s.buf b).dirty⟩ }

omit [DecidableEq Pid] in
theorem Sound.cached_iff (h : Sound s) :
    s.cached k = some b ↔ (s.buf b).valid = true ∧ (s.buf b).sector = k := by
  constructor
  · intro hb
    simpa using List.find?_some hb
  · rintro ⟨hvalid, rfl⟩
    cases hf : s.cached (s.buf b).sector with
    | none =>
      have := List.find?_eq_none.mp hf b (List.mem_finRange b)
      simp [hvalid] at this
    | some a =>
      have ha := List.find?_some hf
      simp only [Bool.and_eq_true, beq_iff_eq] at ha
      rw [h.unique_valid ha.1 (h.valid b hvalid).1 ha.2]

omit [DecidableEq Pid] in
/-- The cached buffers. -/
theorem Sound.cache_iff (h : Sound s) {x : Log.Buffer} : (s.machine m).cache k = some x ↔
    ∃ b, (s.buf b).valid = true ∧ (s.buf b).sector = k ∧ x = ⟨(s.buf b).data, (s.buf b).dirty⟩ := by
  show (s.cached k).map _ = some x ↔ _
  rw [Option.map_eq_some_iff]
  constructor
  · rintro ⟨b, hb, rfl⟩
    obtain ⟨hvalid, hsector⟩ := h.cached_iff.mp hb
    exact ⟨b, hvalid, hsector, rfl⟩
  · rintro ⟨b, hvalid, hsector, rfl⟩
    exact ⟨b, h.cached_iff.mpr ⟨hvalid, hsector⟩, rfl⟩

omit [DecidableEq Pid] in
/-- The log does not see who uses a buffer. -/
theorem machine_congr (hbuf : ∀ b, (t.buf b).valid = (s.buf b).valid ∧
      (t.buf b).sector = (s.buf b).sector ∧ (t.buf b).data = (s.buf b).data ∧
      (t.buf b).dirty = (s.buf b).dirty)
    (hdrive : t.drive = s.drive) : t.machine m = s.machine m := by
  simp only [State.machine, State.cached, hbuf, hdrive]

omit [DecidableEq Pid] in
/-- A sector that is not cached is loaded into the buffer `b`, which drops what
was in it. -/
theorem machine_load (hs : Sound s) (ht : Sound t) (hbuf : ∀ a, a ≠ b → t.buf a = s.buf a)
    (hvalid : (t.buf b).valid = true) (hsector : (t.buf b).sector = k)
    (hdata : (t.buf b).data = s.drive.memdisk k) (hdirty : (t.buf b).dirty = false)
    (hdrive : t.drive = s.drive) (hnone : ∀ a, (s.buf a).valid = true → (s.buf a).sector ≠ k)
    (hold : (s.buf b).valid = true → (s.buf b).dirty = false) :
    t.machine m = (s.machine m).fetch (fun _ _ j => (s.buf b).valid && (s.buf b).sector == j) k := by
  have hmiss : s.cached k = none :=
    Option.eq_none_iff_forall_ne_some.mpr fun a ha =>
      hnone a (hs.cached_iff.mp ha).1 (hs.cached_iff.mp ha).2
  have hcache : (s.machine m).cache k = none := by
    show Option.map _ (s.cached k) = none
    rw [hmiss, Option.map_none]
  rw [Log.Machine.fetch, hcache]
  simp only [State.machine, hdrive]
  congr 1
  funext j
  by_cases hj : j = k
  · subst hj
    rw [ht.cached_iff.mpr ⟨hvalid, hsector⟩, if_pos rfl, Option.map_some, hdata, hdirty]
  · rw [if_neg hj]
    cases ha : s.cached j with
    | none =>
      have htj : t.cached j = none := Option.eq_none_iff_forall_ne_some.mpr fun a hta => by
        obtain ⟨hav, has⟩ := ht.cached_iff.mp hta
        have hab : a ≠ b := fun heq => hj (by rw [← has, heq, hsector])
        rw [hbuf a hab] at hav has
        rw [hs.cached_iff.mpr ⟨hav, has⟩] at ha
        cases ha
      rw [htj]
      rfl
    | some a =>
      obtain ⟨hav, has⟩ := hs.cached_iff.mp ha
      by_cases hab : a = b
      · subst hab
        have htj : t.cached j = none := Option.eq_none_iff_forall_ne_some.mpr fun c htc => by
          obtain ⟨hcv, hcs⟩ := ht.cached_iff.mp htc
          have hca : c ≠ a := fun heq => hj (by rw [← hcs, heq, hsector])
          rw [hbuf c hca] at hcv hcs
          exact hca (hs.unique_valid hcv (hs.valid a hav).1 (hcs.trans has.symm))
        simp [htj, hav, has, hold hav]
      · have hbj : ¬ ((s.buf b).valid = true ∧ (s.buf b).sector = j) := fun hb =>
          hab (hs.unique_valid hav (hs.valid b hb.1).1 (has.trans hb.2.symm))
        have hta : t.cached j = some a := ht.cached_iff.mpr (by rw [hbuf a hab]; exact ⟨hav, has⟩)
        rw [hta]
        simp only [Option.map_some, hbuf a hab]
        rw [if_neg (by simpa using fun hv heq => absurd ⟨hv, heq⟩ hbj)]

omit [DecidableEq Pid] in
theorem Sound.block_of_uncached (h : Sound s)
    (hnone : ∀ a, (s.buf a).valid = true → (s.buf a).sector ≠ k) :
    (s.machine m).block k = s.drive.memdisk k := by
  have hmiss : (s.machine m).cache k = none :=
    Option.eq_none_iff_forall_ne_some.mpr fun x hx => by
      obtain ⟨a, ha, heq, -⟩ := h.cache_iff.mp hx
      exact hnone a ha heq
  rw [Log.Machine.block, hmiss]
  rfl

/-- What `bget` makes of the buffer it returns for sector `k`: the sector was
cached in it, or it is recycled. -/
inductive Given (buf : Fin NBUF → Buffer) (b : Fin NBUF) (k : Word) : Buffer → Prop
  | hit (hdev : (buf b).dev = 1) (hsector : (buf b).sector = k) :
      Given buf b k { buf b with busy := true }
  | recycle (hnone : ∀ a, ¬ ((buf a).dev = 1 ∧ (buf a).sector = k))
      (hclean : (buf b).dirty = false) :
      Given buf b k { buf b with
        dev := 1, sector := k, busy := true, valid := false, dirty := false }

/-- The passes of `bget` that return. -/
theorem Moves.given (hm : Moves s l (.pass p) t) (hask : (s.procs p).pc = .loop 1 k)
    (hpc : (t.procs p).pc = .got b) :
    Given s.buf b k (t.buf b) ∧ (∀ a, a ≠ b → t.buf a = s.buf a) ∧ t.drive = s.drive ∧
      (t.procs p).held = (s.procs p).held := by
  cases hm with
  | hit hpc' hdev hsector hfree =>
    rw [hask] at hpc'
    cases hpc'
    simp only [procs_goto, if_pos] at hpc
    cases hpc
    rw [buf_goto, buf_setBuf, if_pos rfl]
    exact ⟨.hit hdev hsector, by simp +contextual, rfl, by simp⟩
  | recycle hpc' hnone hfree hlast =>
    rw [hask] at hpc'
    cases hpc'
    simp only [procs_goto, if_pos] at hpc
    cases hpc
    rw [buf_goto, buf_setBuf, if_pos rfl]
    refine ⟨.recycle (fun a ha => ?_) (free_iff.mp hfree).2, by simp +contextual, rfl, by simp⟩
    have := hnone a
    rw [holds_iff.mpr ha] at this
    cases this
  | sleep hpc' hdev hsector hbusy => simp at hpc
  | full hpc' hused =>
    rw [procs_stop, hask] at hpc
    cases hpc

omit [DecidableEq Pid] in
/-- The sector was cached, and its buffer is returned. -/
theorem machine_of_hit (hs : Sound s) {x : Buffer} (hgiven : Given s.buf b k x)
    (hvalid : x.valid = true) (hbuf : t.buf b = x) (hother : ∀ a, a ≠ b → t.buf a = s.buf a)
    (hdrive : t.drive = s.drive) (recycle : Log.Recycle) :
    (t.buf b).dev = 1 ∧ (t.buf b).sector = k ∧ (t.buf b).data = (s.machine m).block k ∧
      t.machine m = (s.machine m).fetch recycle k := by
  cases hgiven with
  | recycle hnone hclean => cases hvalid
  | hit hdev hsector =>
    have hcache := (hs.cache_iff (m := m)).mpr ⟨b, hvalid, hsector, rfl⟩
    rw [hbuf]
    refine ⟨hdev, hsector, ?_, ?_⟩
    · rw [Log.Machine.block, hcache]
    · rw [Log.Machine.fetch, hcache]
      refine machine_congr (fun a => ?_) hdrive
      by_cases hab : a = b
      · rw [hab, hbuf]
        exact ⟨rfl, rfl, rfl, rfl⟩
      · rw [hother a hab]
        exact ⟨rfl, rfl, rfl, rfl⟩

omit [DecidableEq Pid] in
/-- The sector was not cached, and it is read from the disk. -/
theorem machine_of_read (hs : Sound s) (ht : Sound t) {x : Buffer} (hgiven : Given s.buf b k x)
    (hvalid : x.valid = false)
    (hbuf : t.buf b = { x with data := s.drive.memdisk x.sector, valid := true })
    (hother : ∀ a, a ≠ b → t.buf a = s.buf a) (hdrive : t.drive = s.drive) :
    (t.buf b).dev = 1 ∧ (t.buf b).sector = k ∧ (t.buf b).data = (s.machine m).block k ∧
      ∃ recycle, t.machine m = (s.machine m).fetch recycle k := by
  obtain ⟨hk, hdev, hdirty, hnone, hclean⟩ : x.sector = k ∧ x.dev = 1 ∧ x.dirty = false ∧
      (∀ a, (s.buf a).valid = true → (s.buf a).sector ≠ k) ∧
      ((s.buf b).valid = true → (s.buf b).dirty = false) := by
    cases hgiven with
    | recycle hnone hclean =>
      exact ⟨rfl, rfl, rfl, fun a ha heq => hnone a ⟨(hs.valid a ha).1, heq⟩, fun _ => hclean⟩
    | hit hdev hsector =>
      have hinvalid : (s.buf b).valid = false := hvalid
      refine ⟨hsector, hdev, ?_, fun a ha heq => ?_, fun h => ?_⟩
      · by_contra hd
        rw [hs.dirty b (by simpa using hd)] at hinvalid
        cases hinvalid
      · rw [hs.unique_valid ha hdev (heq.trans hsector.symm), hinvalid] at ha
        cases ha
      · rw [hinvalid] at h
        cases h
  have hsector : (t.buf b).sector = k := by rw [hbuf, ← hk]
  have hdata : (t.buf b).data = s.drive.memdisk k := by rw [hbuf, ← hk]
  refine ⟨by rw [hbuf, ← hdev], hsector, ?_, ?_⟩
  · rw [hdata, hs.block_of_uncached hnone]
  · exact ⟨_, machine_load hs ht hother (by rw [hbuf]) hsector hdata (by rw [hbuf, ← hdirty]) hdrive
      hnone hclean⟩

/-- A `bread` of a process that does not have to wait. -/
theorem bread_machine (h : Inv s l owner)
    (hx : exec step (breadSteps p k) s = some t) (hhalt : t.halt = none) :
    ∃ b, (t.procs p).held = b :: (s.procs p).held ∧ (t.buf b).dev = 1 ∧
      (t.buf b).sector = k ∧ (t.buf b).data = (s.machine m).block k ∧
      ∃ recycle, t.machine m = (s.machine m).fetch recycle k := by
  simp only [breadSteps, exec, Option.bind_eq_some_iff, Option.some.injEq, exists_eq_right] at hx
  obtain ⟨s₁, h₁, s₂, h₂, h₃⟩ := hx
  obtain ⟨_, hinv₁⟩ := h.step h₁
  obtain ⟨_, hinv₂⟩ := hinv₁.step h₂
  obtain ⟨_, hinv₃⟩ := hinv₂.step h₃
  cases (h.moves h₁).2
  have hm₂ := (hinv₁.moves h₂).2
  have hask : ((s.goto p (.loop 1 k)).procs p).pc = .loop 1 k := by simp
  cases (hinv₂.moves h₃).2 with
  | @cached _ b hpc hvalid =>
    obtain ⟨hgiven, hother, hdrive, hheld⟩ := hm₂.given hask hpc
    obtain ⟨hdev, hsector, hdata, hfetch⟩ :=
      machine_of_hit (t := s₂.give p b) (m := m) h.sound hgiven hvalid rfl hother hdrive
        fun _ _ _ => false
    exact ⟨b, by simpa using hheld, hdev, hsector, hdata, _, hfetch⟩
  | @read _ b hpc hvalid hdev hsector =>
    obtain ⟨hgiven, hother, hdrive, hheld⟩ := hm₂.given hask hpc
    refine ⟨b, by simpa using hheld, machine_of_read h.sound hinv₃.sound hgiven hvalid ?_ ?_ hdrive⟩
    · rw [buf_give, buf_setBuf, if_pos rfl, hdrive]
      rfl
    · intro a hab
      rw [buf_give, buf_setBuf, if_neg hab]
      exact hother a hab
  | refused hpc hmsg => cases hhalt

omit [DecidableEq Pid] in
/-- A valid buffer changes, but not its sector. -/
theorem cache_setBuf (hs : Sound s) {x : Buffer} (hvalid : (s.buf b).valid = true)
    (hx : x.valid = true) (hsector : x.sector = (s.buf b).sector) :
    ((s.setBuf b x).machine m).cache =
      Function.update (s.machine m).cache (s.buf b).sector (some ⟨x.data, x.dirty⟩) := by
  have hcached : ∀ j, (s.setBuf b x).cached j = s.cached j := fun j => by
    refine congrArg (fun f => List.find? f (List.finRange NBUF)) (funext fun a => ?_)
    rw [buf_setBuf]
    split
    · next hab => rw [hx, hsector, hab, hvalid]
    · rfl
  funext j
  show Option.map _ ((s.setBuf b x).cached j) = _
  rw [hcached, Function.update_apply]
  split
  · next hj =>
    rw [hs.cached_iff.mpr ⟨hvalid, hj.symm⟩]
    simp
  · next hj =>
    show _ = (s.cached j).map _
    cases ha : s.cached j with
    | none => rfl
    | some a =>
      have hab : a ≠ b := fun heq => hj (by rw [← (hs.cached_iff.mp ha).2, heq])
      simp [hab]

/-- What the log is modelled with is what the functions of `bio.c` do.  A `bread`
that does not have to wait returns the contents that the log sees, and it fetches
the sector and drops clean buffers.  A `bwrite` writes one sector.  A store with
`B_DIRTY` makes the buffer dirty, and a `brelse` is not seen by the log. -/
theorem cache_refines_log {s₀ : State Pid} {tr : List (State Pid × Label Pid)} (hs : Initial s₀)
    (hr : Run step s₀ tr s) (hhalt : t.halt = none) (m : Log.Machine) (p : Pid) :
    (∀ k, exec step (breadSteps p k) s = some t →
      ∃ b, (t.procs p).held = b :: (s.procs p).held ∧ (t.buf b).dev = 1 ∧
        (t.buf b).sector = k ∧ (t.buf b).data = (s.machine m).block k ∧
        ∃ recycle, t.machine m = (s.machine m).fetch recycle k) ∧
    (∀ b, step (.bwrite p b) s = some t →
      t.machine { m with writes := m.writes ++ [((s.buf b).sector, (s.buf b).data)] } =
        (s.machine m).write (s.buf b).sector (s.buf b).data) ∧
    (∀ b data, exec step [.store p b data, .mark p b] s = some t →
      t.machine m = (s.machine m).setDirty (s.buf b).sector data) ∧
    (∀ b, step (.brelse p b) s = some t → t.machine m = s.machine m) := by
  obtain ⟨l, owner, h⟩ := inv_of_run hs hr
  refine ⟨fun k hx => bread_machine h hx hhalt, fun b hx => ?_, fun b data hx => ?_, fun b hx => ?_⟩
  · cases (h.moves hx).2 with
    | write hpc hheld =>
      have hvalid := h.sound.held _ _ hheld
      have hcache := cache_setBuf (m := m) (x := { s.buf b with dirty := false }) h.sound hvalid
        hvalid rfl
      exact congrArg (fun c => Log.Machine.mk
        (Function.update s.drive.memdisk (s.buf b).sector (s.buf b).data) c m.log
        (m.writes ++ [((s.buf b).sector, (s.buf b).data)])) hcache
  · simp only [exec, Option.bind_eq_some_iff, Option.some.injEq, exists_eq_right] at hx
    obtain ⟨s₁, h₁, h₂⟩ := hx
    obtain ⟨_, hinv₁⟩ := h.step h₁
    cases (h.moves h₁).2 with
    | store hpc hheld =>
      cases (hinv₁.moves h₂).2 with
      | mark _ _ =>
        have hvalid := h.sound.held _ _ hheld
        have hcache := cache_setBuf (m := m) (x := { s.buf b with data := data, dirty := true })
          h.sound hvalid hvalid rfl
        rw [buf_setBuf, if_pos rfl, setBuf_setBuf]
        exact congrArg (fun c => Log.Machine.mk s.drive.memdisk c m.log m.writes) hcache
  · cases (h.moves hx).2 with
    | release hpc hheld =>
      refine machine_congr (fun a => ?_) rfl
      rw [buf_wakeup, buf_setBuf]
      split
      · next hab =>
        rw [hab]
        exact ⟨rfl, rfl, rfl, rfl⟩
      · exact ⟨rfl, rfl, rfl, rfl⟩

theorem cache_refines_log_twoProcs : ∃ t : State Bool, t.halt = none ∧
    exec step (breadSteps true 5) twoProcs = some t ∧ ∃ recycle,
      t.machine (Log.boot fun _ => zeroBuf 512) =
        (twoProcs.machine (Log.boot fun _ => zeroBuf 512)).fetch recycle 5 := by
  have hx : (exec step (breadSteps true 5) twoProcs).map (fun t => t.halt) = some none := by
    decide +kernel
  obtain ⟨t, ht, hhalt⟩ := Option.map_eq_some_iff.mp hx
  obtain ⟨b, -, -, -, -, hfetch⟩ := (cache_refines_log twoProcs_initial (.nil twoProcs) hhalt
    (Log.boot fun _ => zeroBuf 512) true).1 5 ht
  exact ⟨t, hhalt, ht, hfetch⟩

end Xv6Arm.Bio
