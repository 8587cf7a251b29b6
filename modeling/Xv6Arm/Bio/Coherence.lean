import Mathlib.Data.Fintype.Basic
import Xv6Arm.Bio.Owners

/-!
# What a process reads

`latest` is the contents of the sectors as the processes wrote them: a store into
a buffer changes its sector.  A process that releases a buffer it has changed must
have written it to the disk, or have marked it dirty so that it stays in the
cache (`Saved`).  Then a process that has a buffer sees the latest contents of
its sector, whoever wrote them and whether or not the buffer was recycled in
between (`bread_returns_latest`).

`recent` is the order in which the buffers were last released.  The list of the
cache is in this order, and so `bget` recycles the buffer that was not used for
the longest time (`recycles_least_recent`).
-/

namespace Xv6Arm.Bio

open Bytes Linked Circles Runs

variable {Pid : Type} [DecidableEq Pid] {s t : State Pid} {l : List (Fin NBUF)}
  {owner : Fin NBUF → Option Pid} {p : Pid} {b : Fin NBUF}

/-! ## The contents of the sectors -/

/-- The contents of the sectors after a step. -/
def storeStep (d : Word → Block) (x : State Pid × Label Pid) : Word → Block :=
  match x.2 with
  | .store _ b data => Function.update d (x.1.buf b).sector data
  | _ => d

/-- The contents of the sectors after the stores of a run. -/
def latest (d : Word → Block) (tr : List (State Pid × Label Pid)) : Word → Block :=
  tr.foldl storeStep d

/-- A buffer is released when it is on the disk or marked dirty. -/
def Saved (s : State Pid) : Label Pid → Prop
  | .brelse _ b => (s.buf b).dirty = true ∨ (s.buf b).data = s.drive.memdisk (s.buf b).sector
  | _ => True

instance (s : State Pid) : DecidablePred (Saved s) := fun lab =>
  match lab with
  | .brelse _ b => inferInstanceAs (Decidable
      ((s.buf b).dirty = true ∨ (s.buf b).data = s.drive.memdisk (s.buf b).sector))
  | .call _ _ _ | .pass _ | .fetch _ | .wake _ | .store _ _ _ | .mark _ _ | .bwrite _ _ =>
    .isTrue trivial

/-- The buffers and the disk have the contents `d` of the sectors. -/
structure Coherent (s : State Pid) (d : Word → Block) : Prop where
  cached : ∀ b, (s.buf b).valid = true → (s.buf b).data = d (s.buf b).sector
  /-- The disk is right about a buffer that may be recycled. -/
  clean : ∀ b, (s.buf b).valid = true → (s.buf b).busy = false → (s.buf b).dirty = false →
    s.drive.memdisk (s.buf b).sector = d (s.buf b).sector
  /-- The disk is right about a sector that is not cached. -/
  disk : ∀ k, (∀ b, (s.buf b).valid = true → (s.buf b).sector ≠ k) → s.drive.memdisk k = d k

omit [DecidableEq Pid] in
theorem Coherent.congr {d : Word → Block} (h : Coherent s d) (hbuf : ∀ b, t.buf b = s.buf b)
    (hdrive : t.drive = s.drive) : Coherent t d := by
  obtain ⟨hcached, hclean, hdisk⟩ := h
  constructor <;> simp only [hbuf, hdrive] <;> assumption

omit [DecidableEq Pid] in
/-- A buffer changes its flags. -/
theorem Coherent.flags {d : Word → Block} (h : Coherent s d) {x : Buffer}
    (hdata : x.data = (s.buf b).data) (hsector : x.sector = (s.buf b).sector)
    (hvalid : x.valid = (s.buf b).valid)
    (hclean : x.valid = true → x.busy = false → x.dirty = false →
      s.drive.memdisk x.sector = d x.sector) : Coherent (s.setBuf b x) d := by
  obtain ⟨hc, hcl, hd⟩ := h
  constructor <;> simp only [buf_setBuf, drive_setBuf] <;> grind

omit [DecidableEq Pid] in
/-- A buffer that is on the disk is recycled. -/
theorem Coherent.recycle {d : Word → Block} (h : Coherent s d) {x : Buffer}
    (hfree : s.cache.free b = true) (hx : x.valid = false) : Coherent (s.setBuf b x) d := by
  obtain ⟨hidle, hndirty⟩ := free_iff.mp hfree
  obtain ⟨hcached, hclean, hdisk⟩ := h
  constructor <;> simp only [buf_setBuf, drive_setBuf]
  · grind
  · grind
  · intro k hk
    -- The sector of the old buffer is no longer cached.
    by_cases hold : (s.buf b).valid = true ∧ (s.buf b).sector = k
    · rw [← hold.2]
      exact hclean b hold.1 hidle hndirty
    · exact hdisk k (by grind)

omit [DecidableEq Pid] in
/-- A sector that is not cached is read from the disk. -/
theorem Coherent.read {d : Word → Block} (h : Coherent s d) {x : Buffer}
    (hbusy : x.busy = true) (hdata : x.data = s.drive.memdisk x.sector)
    (hvalid : (s.buf b).valid = false)
    (hnew : ∀ a, (s.buf a).valid = true → (s.buf a).sector ≠ x.sector) :
    Coherent (s.setBuf b x) d := by
  obtain ⟨hcached, hclean, hdisk⟩ := h
  have hx := hdisk x.sector hnew
  constructor <;> simp only [buf_setBuf, drive_setBuf] <;> grind

omit [DecidableEq Pid] in
/-- The user of a buffer changes its data. -/
theorem Coherent.store {d : Word → Block} (h : Coherent s d) {x : Buffer} (hbusy : x.busy = true)
    (hsector : x.sector = (s.buf b).sector) (hvalid : x.valid = true)
    (hnew : ∀ a, (s.buf a).valid = true → (s.buf a).sector = x.sector → a = b) :
    Coherent (s.setBuf b x) (Function.update d x.sector x.data) := by
  obtain ⟨hcached, hclean, hdisk⟩ := h
  constructor <;> simp only [buf_setBuf, drive_setBuf, Function.update_apply] <;> grind

omit [DecidableEq Pid] in
/-- The user of a buffer writes it to the disk. -/
theorem Coherent.write {d : Word → Block} (h : Coherent s d)
    (hvalid : (s.buf b).valid = true) :
    Coherent (s.setDrive { s.drive with
      memdisk := Function.update s.drive.memdisk (s.buf b).sector (s.buf b).data }) d := by
  obtain ⟨hcached, hclean, hdisk⟩ := h
  have hb := hcached b hvalid
  constructor <;> simp only [buf_setDrive, drive_setDrive, Function.update_apply] <;> grind

theorem Moves.coherent {lab : Label Pid} {d : Word → Block} (hm : Moves s l lab t)
    (h : Coherent s d) (hinv : Inv s l owner) (hsaved : Saved s lab) :
    Coherent t (storeStep d (s, lab)) := by
  cases hm with
  | call hpc => exact h.congr (fun _ => rfl) rfl
  | wake hpc => exact h.congr (fun _ => rfl) rfl
  | @hit p b dev sector hpc hdev hsector hfree =>
    have hset := h.flags (b := b) (x := { s.buf b with busy := true }) rfl rfl rfl nofun
    exact hset.congr (fun _ => rfl) rfl
  | sleep hpc hdev hsector hbusy => exact h.congr (fun _ => rfl) rfl
  | recycle hpc hnone hfree hlast =>
    exact (Coherent.recycle h hfree rfl).congr (fun _ => rfl) rfl
  | full hpc hused => exact h.congr (fun _ => rfl) rfl
  | cached hpc hvalid => exact h.congr (fun _ => rfl) rfl
  | read hpc hvalid hdev hsector =>
    refine (Coherent.read h ?_ ?_ hvalid ?_).congr (fun _ => rfl) rfl
    · exact hinv.owned.busy_of_got hpc
    · rfl
    · intro a ha heq
      obtain rfl := hinv.sound.unique_valid ha hdev heq
      rw [ha] at hvalid
      cases hvalid
  | refused hpc hmsg => exact h.congr (fun _ => rfl) rfl
  | store hpc hheld =>
    have hvalid := hinv.sound.held _ _ hheld
    have hdev := (hinv.sound.valid _ hvalid).1
    have hbusy := hinv.owned.busy_of_held hheld
    exact Coherent.store h hbusy rfl hvalid fun a ha => hinv.sound.unique_valid ha hdev
  | @mark p b hpc hheld =>
    exact h.flags (b := b) (x := { s.buf b with dirty := true }) rfl rfl rfl nofun
  | @write p b hpc hheld =>
    have hvalid := hinv.sound.held _ _ hheld
    have hbusy := hinv.owned.busy_of_held hheld
    have hwrite := (h.write hvalid).flags (b := b) (x := { s.buf b with dirty := false })
      rfl rfl rfl (fun _ hidle => by rw [hbusy] at hidle; cases hidle)
    exact hwrite.congr (fun _ => rfl) rfl
  | @release p b hpc hheld =>
    have hvalid := hinv.sound.held _ _ hheld
    have hset := h.flags (b := b) (x := { s.buf b with busy := false }) rfl rfl rfl
      fun _ _ hndirty => by
        rcases hsaved with hdirty | hdata
        · rw [hndirty] at hdirty
          cases hdirty
        · exact hdata.symm.trans (h.cached b hvalid)
    exact hset.congr (fun _ => rfl) rfl

theorem Coherent.run {d : Word → Block} {tr : List (State Pid × Label Pid)}
    (hr : Run step s tr t) (h : Coherent s d) (hinv : ∃ l owner, Inv s l owner)
    (hsaved : EveryStep Saved tr) : Coherent t (latest d tr) := by
  induction hr generalizing d with
  | nil s => exact h
  | cons hstep _ ih =>
    obtain ⟨l, owner, hinv⟩ := hinv
    obtain ⟨hok, hrest⟩ := everyStep_cons.mp hsaved
    exact ih ((hinv.moves hstep).2.coherent h hinv hok) ⟨_, hinv.step hstep⟩ hrest

omit [DecidableEq Pid] in
theorem Initial.coherent (h : Initial s) : Coherent s s.drive.memdisk := by
  obtain ⟨c, hflags, hc⟩ := h.cache
  have hvalid : ∀ b, (s.buf b).valid = false := fun b => by
    rw [State.buf, hc, bInit, buf_foldl_insert]
    exact (hflags b).2.1
  constructor <;> simp [hvalid]

/-- A process that has a buffer sees the latest contents of its sector, and the
disk has the latest contents of a sector that is not in use or dirty. -/
theorem bread_returns_latest {tr : List (State Pid × Label Pid)} (hs : Initial s)
    (hr : Run step s tr t) (hsaved : EveryStep Saved tr) :
    (∀ p, ∀ b ∈ (t.procs p).held, (t.buf b).data = latest s.drive.memdisk tr (t.buf b).sector) ∧
    (∀ k, (∀ b, (t.buf b).dev = 1 → (t.buf b).sector = k →
        (t.buf b).busy = false ∧ (t.buf b).dirty = false) →
      t.drive.memdisk k = latest s.drive.memdisk tr k) := by
  obtain ⟨l, owner, hinv⟩ := inv_of_run hs hr
  have hcoh := hs.coherent.run hr ⟨_, _, hs.inv⟩ hsaved
  refine ⟨fun p b hb => hcoh.cached b (hinv.sound.held p b hb), fun k hk => ?_⟩
  by_cases hcached : ∃ b, (t.buf b).valid = true ∧ (t.buf b).sector = k
  · obtain ⟨b, hvalid, rfl⟩ := hcached
    obtain ⟨hidle, hclean⟩ := hk b (hinv.sound.valid b hvalid).1 rfl
    exact hcoh.clean b hvalid hidle hclean
  · exact hcoh.disk k fun b hvalid heq => hcached ⟨b, hvalid, heq⟩

theorem bread_returns_latest_twoProcs : ∃ (tr : _) (t : State Bool), Run step twoProcs tr t ∧
    (t.procs true).held = [buf₀] ∧
      (t.buf buf₀).data =
        latest twoProcs.drive.memdisk tr (t.buf buf₀).sector := by
  obtain ⟨tr, t, hr, hsaved, hheld⟩ := run_twoProcs Saved
    (breadSteps false 5 ++ [.store false buf₀ (fun _ => 7),
      .mark false buf₀, .brelse false buf₀] ++ breadSteps true 5)
    (f := fun t => (t.procs true).held) (x := [buf₀]) (by decide +kernel)
  exact ⟨tr, t, hr, hheld, (bread_returns_latest twoProcs_initial hr hsaved).1 true _
    (hheld ▸ List.mem_cons_self)⟩

/-! ## The order of the list -/

/-- The order of the list after the releases of a run. -/
def recent (l : List (Fin NBUF)) (tr : List (State Pid × Label Pid)) : List (Fin NBUF) :=
  tr.foldl (fun l x => reorder x.2 l) l

/-- The step releases `b`. -/
def Releases (b : Fin NBUF) (x : State Pid × Label Pid) : Prop := ∃ p, x.2 = .brelse p b

/-- In a run `b` was never released, or not since a release of `a`. -/
def NotSince (b a : Fin NBUF) (tr : List (State Pid × Label Pid)) : Prop :=
  (∀ y ∈ tr, ¬ Releases b y) ∨
    ∃ tr₁ x tr₂, tr = tr₁ ++ x :: tr₂ ∧ Releases a x ∧ ∀ y ∈ tr₂, ¬ Releases b y

section Order

omit [DecidableEq Pid]

variable {tr : List (State Pid × Label Pid)} {x : State Pid × Label Pid} {a : Fin NBUF}

theorem NotSince.snoc (h : NotSince b a tr) (hx : ¬ Releases b x) : NotSince b a (tr ++ [x]) := by
  rcases h with hnever | ⟨tr₁, y, tr₂, rfl, hy, hsince⟩
  · exact .inl fun z hz => (List.mem_append.mp hz).elim (hnever z) fun hz =>
      List.mem_singleton.mp hz ▸ hx
  · refine .inr ⟨tr₁, y, tr₂ ++ [x], by rw [List.append_assoc, List.cons_append], hy, fun z hz => ?_⟩
    exact (List.mem_append.mp hz).elim (hsince z) fun hz => List.mem_singleton.mp hz ▸ hx

theorem notSince_of_releases (hx : Releases a x) : NotSince b a (tr ++ [x]) :=
  .inr ⟨tr, x, [], rfl, hx, nofun⟩

/-- Of two buffers the one in front was released later. -/
theorem recent_pairwise (hl : l.Nodup) :
    (recent l tr).Nodup ∧ (recent l tr).Pairwise fun a b => NotSince b a tr := by
  induction tr using List.reverseRecOn with
  | nil => exact ⟨hl, List.pairwise_of_forall fun _ _ => .inl nofun⟩
  | append_singleton tr x ih =>
    obtain ⟨hnd, hpw⟩ := ih
    rw [recent, List.foldl_append, List.foldl_cons, List.foldl_nil, ← recent]
    by_cases hrel : ∃ c, Releases c x
    · obtain ⟨c, q, hq⟩ := hrel
      have hother : ∀ b, b ≠ c → ¬ Releases b x := fun b hne ⟨r, hr⟩ => by
        rw [hq] at hr
        exact hne (Label.brelse.inj hr).2.symm
      rw [hq]
      show (c :: (recent l tr).erase c).Nodup ∧ (c :: (recent l tr).erase c).Pairwise _
      refine ⟨?_, List.pairwise_cons.mpr ⟨fun b _ => notSince_of_releases ⟨q, hq⟩, ?_⟩⟩
      · exact List.nodup_cons.mpr ⟨hnd.not_mem_erase, hnd.erase c⟩
      · refine (hpw.sublist List.erase_sublist).imp_of_mem fun {a b} _ hb hab => ?_
        exact hab.snoc (hother b ((hnd.mem_erase_iff.mp hb).1))
    · have hsame : reorder x.2 (recent l tr) = recent l tr := by
        cases hlab : x.2 with
        | brelse q c => exact absurd ⟨c, q, hlab⟩ hrel
        | _ => rfl
      rw [hsame]
      exact ⟨hnd, hpw.imp fun hab => hab.snoc fun hb => hrel ⟨_, hb⟩⟩

end Order

theorem inv_recent {tr : List (State Pid × Label Pid)} (hr : Run step s tr t)
    (h : ∃ owner, Inv s l owner) : ∃ owner, Inv t (recent l tr) owner := by
  induction hr generalizing l with
  | nil s => exact h
  | cons hstep _ ih =>
    obtain ⟨owner, h⟩ := h
    exact ih (h.step hstep)

/-- `bget` recycles the buffer whose last release is the longest ago, of those
that are neither busy nor dirty. -/
theorem recycles_least_recent {tr : List (State Pid × Label Pid)} (hs : Initial s)
    (hr : Run step s tr t) {dev sector : Word} (hpass : t.cache.pass dev sector = .recycle b) :
    t.cache.free b = true ∧ ∀ a, a ≠ b → t.cache.free a = true → NotSince b a tr := by
  obtain ⟨owner, hinv⟩ := inv_recent hr ⟨_, hs.inv⟩
  have hfound := hinv.listed.pass dev sector
  rw [hpass] at hfound
  cases hfound with
  | recycle _ _ hfree hlast =>
    refine ⟨hfree, fun a hne ha => ?_⟩
    have hpw : (recent (List.finRange NBUF).reverse tr).Pairwise fun a b => NotSince b a tr :=
      (recent_pairwise hs.inv.listed.nodup).2
    have hlt := hlast a ha hne
    have hlen := List.idxOf_lt_length_of_mem (hinv.listed.mem b)
    have := List.pairwise_iff_getElem.mp hpw _ _ (hlt.trans hlen) hlen hlt
    rwa [List.getElem_idxOf, List.getElem_idxOf] at this

theorem recycles_least_recent_twoProcs : ∃ (tr : _) (t : State Bool), Run step twoProcs tr t ∧
    t.cache.pass 1 9 = .recycle buf₁ ∧ NotSince buf₁ buf₀ tr := by
  obtain ⟨tr, t, hr, -, hx⟩ := run_twoProcs (fun _ _ => True)
    (breadSteps false 5 ++ [.brelse false buf₀])
    (f := fun t => (t.cache.pass 1 9, t.cache.free buf₀))
    (x := (.recycle buf₁, true)) (by decide +kernel)
  obtain ⟨hpass, hfree⟩ := Prod.mk.inj hx
  exact ⟨tr, t, hr, hpass, (recycles_least_recent twoProcs_initial hr hpass).2 _ (by decide) hfree⟩

end Xv6Arm.Bio
