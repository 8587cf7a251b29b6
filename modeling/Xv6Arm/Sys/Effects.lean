import Xv6Arm.Sys.Changes
import Xv6Arm.Sys.Steps

/-!
# What the calls do to the disk

Each call that returns leaves the disk as it was, or changes it in one way: `sys_link`
adds a name for an inode, `create` adds an inode with its name, `sys_unlink` removes a
name, and the last reference to an inode without links frees it.
-/

namespace Xv6Arm.Sys

open Fs Programs Prog NameTree

/-- The cache agrees with the disk, and an inode without links is referenced. -/
structure Cached (k : Kernel) : Prop where
  agree : ∀ i, k.valid i = true → k.core i = k.disk.inode i
  live : ∀ i, k.valid i = true → (k.disk.inode i).type ≠ 0
  pinned : ∀ i, (k.disk.inode i).type ≠ 0 → (k.disk.inode i).nlink ≤ 0 →
    0 < k.ref i ∧ k.valid i = true
  files : ∀ f, (k.file f).ref = 0 → (k.file f).type = .none

/-- What holds between calls. -/
def Inv (k : Kernel) : Prop := Cached k ∧ ∃ t : Hierarchy Nat, t.Wf ∧ Represents k.disk t 0

section Cached

variable {p : Pid} {k₀ k : Kernel} {D : Disk} {held : Multiset Nat} {V : List Nat} {i : Nat}

theorem Cached.holding (h : Cached k) : Holding k k.disk 0 [] k where
  disk := rfl
  ref := fun _ => by rw [Multiset.count_zero, Nat.add_zero]
  agree := h.agree
  live := h.live
  read := fun _ hj => absurd hj List.not_mem_nil
  kept := fun _ _ hj => hj
  cwd := rfl
  files := h.files

theorem Cached.pinned_disk (h : Cached k) : Pinned k k.disk := fun i htype hn =>
  (h.pinned i htype hn).1

/-- At the end of a call, an inode without links had none at its start, or is still held. -/
theorem Holding.cached (h : Holding k₀ D held V k) (h₀ : Cached k₀)
    (hpin : ∀ i, (D.inode i).type ≠ 0 → (D.inode i).nlink ≤ 0 →
      i ∈ V ∨ (k₀.disk.inode i).type ≠ 0 ∧ (k₀.disk.inode i).nlink ≤ 0) : Cached k where
  agree := by
    rw [h.disk]
    exact h.agree
  live := by
    rw [h.disk]
    exact h.live
  pinned := by
    rw [h.disk]
    intro i htype hn
    have href := h.ref i
    rcases hpin i htype hn with hV | ⟨htype₀, hn₀⟩
    · obtain ⟨hvalid, hheld⟩ := h.read i hV
      have := Multiset.count_pos.mpr hheld
      exact ⟨by omega, hvalid⟩
    · obtain ⟨hpos, hvalid⟩ := h₀.pinned i htype₀ hn₀
      exact ⟨by omega, h.kept i hpos hvalid⟩
  files := h.files

/-- A reference can be dropped at any time: if it was the last one to an inode without links, the
inode is freed. -/
theorem iput_inv (h : Inv k) : (iput i).Ensures (handle p) k fun _ k' => Inv k' := by
  obtain ⟨hc, t, hwf, hrep⟩ := h
  apply ensures_call
  intro r k' hk
  change k.iput i = _ at hk
  unfold Kernel.iput at hk
  split at hk
  · next hlast =>
    split at hk
    · cases hk
    · cases hk
      rw [Kernel.lastPut, decide_eq_true_eq] at hlast
      obtain ⟨-, hvalid, hnlink⟩ := hlast
      have htype := hc.live i hvalid
      rw [hc.agree i hvalid] at hnlink
      have hlinks : t.links i = 0 := by
        have := hrep.nlink i htype
        rw [hnlink] at this
        simpa using this.symm
      have hdirs : i ∉ t.dirs := by
        rw [hrep.mem_dirs_iff hwf, hnlink]
        simp
      have hold : ∀ j, j ≠ i → ((k.disk.setEntries i []).setInode i
          { k.core i with type := 0 }).inode j = k.disk.inode j := fun j hj =>
        Disk.setInode_ne _ _ hj
      refine ⟨⟨?_, ?_, ?_, hc.files⟩, t, hwf, hrep.free hlinks hdirs rfl⟩
      · intro j hj
        obtain ⟨hji, hj⟩ := valid_of_dropped hj
        simp only [Function.update_of_ne hji, hold j hji]
        exact hc.agree j hj
      · intro j hj
        obtain ⟨hji, hj⟩ := valid_of_dropped hj
        simp only [hold j hji]
        exact hc.live j hj
      · intro j htype' hn
        rcases eq_or_ne j i with rfl | hji
        · simp only [Disk.setInode_self] at htype'
          exact absurd rfl htype'
        · simp only [hold j hji] at htype' hn
          simp only [Function.update_of_ne hji]
          exact hc.pinned j htype' hn
  · next hlast =>
    cases hk
    refine ⟨⟨hc.agree, hc.live, ?_, hc.files⟩, t, hwf, hrep⟩
    intro j htype hn
    have hn : (k.disk.inode j).nlink ≤ 0 := hn
    obtain ⟨hpos, hvalid⟩ := hc.pinned j htype hn
    refine ⟨?_, hvalid⟩
    rcases eq_or_ne j i with rfl | hji
    · have hnonneg := hrep.nlink j htype
      simp only [Pi.zero_apply, Int.add_zero] at hnonneg
      rw [Kernel.lastPut, decide_eq_true_eq] at hlast
      have hone : k.ref j ≠ 1 := fun hone =>
        hlast ⟨hone, hvalid, by rw [hc.agree j hvalid]; omega⟩
      simp only [Function.update_self]
      omega
    · simp only [Function.update_of_ne hji]
      exact hpos

end Cached

/-! ## The names that calls add -/

/-- The directory that `create` adds a name to. -/
def Disk.creates (D : Disk) (path : List UInt8) (cwd : Nat) : Option Nat :=
  match D.follow true path cwd with
  | some (d, name) => if D.lookup d name = none then some d else none
  | none => none

/-- The directory that a call adds a name to. -/
def Call.adds (D : Disk) (cwd : Nat) : Call → Option Nat
  | .link (some old) (some new) =>
      match D.follow false old cwd with
      | some (i, _) => if (D.inode i).type = T_DIR then none else D.creates new cwd
      | none => none
  | .openFile (some path) (some omode) =>
      if omode &&& O_CREATE ≠ 0 then D.creates path cwd else none
  | .mkdir (some path) => D.creates path cwd
  | .mknod (some path) (some _) (some _) => D.creates path cwd
  | _ => none

theorem creates_eq {D : Disk} {path : List UInt8} {cwd d : Nat} {name : Name}
    (hpath : D.follow true path cwd = some (d, name)) (hlookup : D.lookup d name = none) :
    D.creates path cwd = some d := by
  rw [Disk.creates, hpath]
  exact if_pos hlookup

theorem creates_none {D : Disk} {path : List UInt8} {cwd : Nat}
    (h : D.follow true path cwd = none) : D.creates path cwd = none := by
  rw [Disk.creates, h]

theorem creates_found {D : Disk} {path : List UInt8} {cwd d : Nat} {name : Name} {e : Nat × Nat}
    (hpath : D.follow true path cwd = some (d, name)) (hlookup : D.lookup d name = some e) :
    D.creates path cwd = none := by
  rw [Disk.creates, hpath]
  exact if_neg (by rw [hlookup]; exact Option.some_ne_none e)

/-! ## Links -/

section Link

variable {p : Pid} {k₀ k : Kernel} {D : Disk} {V : List Nat} {ip : Nat}

/-- An inode without links. -/
def Disk.Dead (D : Disk) (i : Nat) : Prop := (D.inode i).type ≠ 0 ∧ (D.inode i).nlink ≤ 0

theorem Pinned.mono {D' : Disk} (h : Pinned k₀ D) (hdead : ∀ j, D'.Dead j → D.Dead j) :
    Pinned k₀ D' :=
  fun j htype hn => h j (hdead j ⟨htype, hn⟩).1 (hdead j ⟨htype, hn⟩).2

theorem Disk.Dead.of_adjust {i j : Nat} (h : (D.adjust i 1).Dead j) : D.Dead j := by
  obtain ⟨htype, hn⟩ := h
  rw [Disk.adjust_type] at htype
  rcases eq_or_ne j i with rfl | hji
  · rw [Disk.adjust, Disk.setInode_self] at hn
    exact ⟨htype, by simp only at hn; omega⟩
  · rw [Disk.adjust, Disk.setInode_ne _ _ hji] at hn
    exact ⟨htype, hn⟩

/-- The exit `bad` of `sys_link` takes back the link. -/
theorem linkBad_spec (h : Holding k₀ (D.adjust ip 1) {ip} V k) (hpin : Pinned k₀ D)
    (htype : (D.inode ip).type ≠ 0) :
    (linkBad ip).Ensures (handle p) k fun _ k' => Holding k₀ D 0 [] k' := by
  refine (ilock_spec h (Multiset.mem_singleton_self ip)).bind fun _ k₁ h => ?_
  refine (load_spec h List.mem_cons_self).bind ?_
  rintro n k₂ ⟨rfl, h⟩
  have htype' : ((D.adjust ip 1).inode ip).type ≠ 0 := by
    rw [Disk.adjust_type]
    exact htype
  refine (assign_spec h List.mem_cons_self (n := { (D.adjust ip 1).inode ip with
    nlink := ((D.adjust ip 1).inode ip).nlink - 1 }) htype').bind fun _ k₃ h => ?_
  have hback : (D.adjust ip 1).setInode ip
      { (D.adjust ip 1).inode ip with nlink := ((D.adjust ip 1).inode ip).nlink - 1 } = D :=
    D.adjust_adjust ip
  rw [hback] at h
  refine (iunlockput_last h hpin).bind fun _ k₄ h => ?_
  refine (commitTrans_spec h).bind fun _ k₅ h => ?_
  exact ensures_pure h

/-- `sys_link` adds a name for an inode that is not a directory, or changes nothing. -/
theorem link_spec (h₀ : Cached k) (old new : List UInt8) :
    (link old new).Ensures (handle p) k fun _ k' =>
      ((Call.link (some old) (some new)).adds k.disk (k.cwd p) = none ∧
        Holding k k.disk 0 [] k') ∨
      ∃ i x d name, k.disk.follow false old (k.cwd p) = some (i, x) ∧
        (k.disk.inode i).type ≠ 0 ∧ (k.disk.inode i).type ≠ T_DIR ∧
        k.disk.follow true new (k.cwd p) = some (d, name) ∧ k.disk.lookup d name = none ∧
        Holding k ((k.disk.adjust i 1).addEntry d ⟨i, name⟩) 0 [] k' := by
  have hpin := h₀.pinned_disk
  have hnone : ∀ V : List Nat, ∀ j ∈ ([] : List Nat), j ∈ V ∧ j ∈ (0 : Multiset Nat) :=
    fun _ j hj => absurd hj List.not_mem_nil
  refine (namei_spec h₀.holding hpin old).bind ?_
  rintro r k₁ ⟨rfl, h⟩
  cases hold : k.disk.follow false old (k.cwd p) with
  | none =>
      rw [hold] at h
      exact ensures_pure (.inl ⟨by simp only [Call.adds, hold], h⟩)
  | some found =>
      obtain ⟨ip, x⟩ := found
      rw [hold] at h
      refine (beginTrans_spec h).bind fun _ k₂ h => ?_
      refine (ilock_spec h (Multiset.mem_cons_self ip 0)).bind fun _ k₃ h => ?_
      refine (load_spec h List.mem_cons_self).bind ?_
      rintro n k₄ ⟨rfl, h⟩
      have htype := h.live ip (h.read ip List.mem_cons_self).1
      split
      · next hdir =>
        refine (iunlockput_spec h (hnone _) (hpin ip)).bind fun _ k₅ h => ?_
        refine (commitTrans_spec h).bind fun _ k₆ h => ?_
        exact ensures_pure (.inl ⟨by simp only [Call.adds, hold, if_pos hdir], h⟩)
      · next hfile =>
        have hadds : (Call.link (some old) (some new)).adds k.disk (k.cwd p) =
            k.disk.creates new (k.cwd p) := by
          simp only [Call.adds, hold, if_neg hfile]
        rw [hadds]
        refine (assign_spec h List.mem_cons_self (n := { k.disk.inode ip with
          nlink := (k.disk.inode ip).nlink + 1 }) htype).bind fun _ k₅ h => ?_
        have h : Holding k (k.disk.adjust ip 1) (ip ::ₘ 0) [ip] k₅ := h
        have hpin' : Pinned k (k.disk.adjust ip 1) := hpin.mono fun _ h => h.of_adjust
        refine (iunlock_spec h).bind fun _ k₆ h => ?_
        refine (namex_spec h hpin' true new).bind ?_
        rintro r k₇ ⟨rfl, h⟩
        rw [Disk.follow_adjust] at h ⊢
        cases hnew : k.disk.follow true new (k.cwd p) with
        | none =>
            rw [hnew] at h
            exact (linkBad_spec h hpin htype).mono fun _ _ h => .inl ⟨creates_none hnew, h⟩
        | some found =>
            obtain ⟨dp, name⟩ := found
            rw [hnew] at h
            have h : Holding k (k.disk.adjust ip 1) (dp ::ₘ ip ::ₘ 0) [ip] k₇ := h
            refine (ilock_spec h (Multiset.mem_cons_self dp _)).bind fun _ k₈ h => ?_
            refine (dirlink_spec h hpin' List.mem_cons_self name ip).bind fun r k₉ h => ?_
            have hlookup : (k.disk.adjust ip 1).lookup dp name = k.disk.lookup dp name := rfl
            rw [hlookup] at h
            have hput : ∀ j ∈ [ip], j ∈ [dp, ip] ∧ j ∈ (ip ::ₘ 0 : Multiset Nat) := by
              intro j hj
              rw [List.mem_singleton.mp hj]
              exact ⟨List.mem_cons_of_mem _ List.mem_cons_self, Multiset.mem_cons_self ip 0⟩
            cases hfound : k.disk.lookup dp name with
            | none =>
                rw [hfound] at h
                obtain ⟨rfl, h⟩ := h
                refine (iunlockput_spec h hput (hpin' dp)).bind fun _ k₁₀ h => ?_
                refine (iput_spec h (hnone _) (hpin' ip)).bind fun _ k₁₁ h => ?_
                refine (commitTrans_spec h).bind fun _ k₁₂ h => ?_
                exact ensures_pure (.inr ⟨ip, x, dp, name, rfl, htype, hfile, rfl, hfound, h⟩)
            | some found =>
                rw [hfound] at h
                obtain ⟨rfl, h⟩ := h
                refine (iunlockput_spec h hput (hpin' dp)).bind fun _ k₁₀ h => ?_
                exact (linkBad_spec h hpin htype).mono fun _ _ h =>
                  .inl ⟨creates_found hnew hfound, h⟩

end Link

/-! ## New inodes -/

section Create

variable {p : Pid} {k₀ k : Kernel} {D : Disk} {held : Multiset Nat} {V : List Nat} {dp x : Nat}

theorem Disk.Dead.of_newInode {i j : Nat} {n : Inode} (hn : 0 < n.nlink)
    (h : (D.newInode i n).Dead j) : D.Dead j := by
  unfold Disk.Dead at h
  rcases eq_or_ne j i with rfl | hji
  · rw [D.newInode_self] at h
    omega
  · rwa [D.newInode_ne n hji] at h

theorem Disk.Dead.of_allocated {d i j : Nat} {n : Inode} (hn : 0 < n.nlink)
    (h : (D.allocated d i n).Dead j) : D.Dead j := by
  unfold Disk.allocated at h
  split at h
  · have h : ((D.newInode i n).adjust d 1).Dead j := h
    exact h.of_adjust.of_newInode hn
  · exact h.of_newInode hn

theorem lookup_of_nil {name : Name} (h : D.entries x = []) : D.lookup x name = none := by
  rw [Disk.lookup, h]
  rfl

/-- The entries `.` and `..`. -/
theorem createDots_spec {n : Inode} (hdp : (D.inode dp).type ≠ 0) (hne : dp ≠ x)
    (hn : 0 < n.nlink) (hpin : Pinned k₀ D) (h : Holding k₀ (D.newInode x n) held V k)
    (hxV : x ∈ V) (hdpV : dp ∈ V) :
    (createDots x dp n.type).Ensures (handle p) k fun _ k' =>
      Holding k₀ (D.allocated dp x n) held V k' := by
  unfold createDots Disk.allocated
  split
  · have hdptype : ((D.newInode x n).inode dp).type ≠ 0 := by
      rw [D.newInode_ne n hne]
      exact hdp
    have hempty : ((D.newInode x n).adjust dp 1).entries x = [] := D.newInode_entries_self x n
    have hpin₁ : Pinned k₀ ((D.newInode x n).adjust dp 1) :=
      hpin.mono fun _ h => h.of_adjust.of_newInode hn
    refine (load_spec h hdpV).bind ?_
    rintro d k₁ ⟨rfl, h⟩
    refine (assign_spec h hdpV (n := { (D.newInode x n).inode dp with
      nlink := ((D.newInode x n).inode dp).nlink + 1 }) hdptype).bind fun _ k₂ h => ?_
    have h : Holding k₀ ((D.newInode x n).adjust dp 1) held V k₂ := h
    refine (dirlink_spec h hpin₁ hxV dot x).bind fun r k₃ h => ?_
    rw [lookup_of_nil hempty] at h
    obtain ⟨rfl, h⟩ := h
    refine (dirlink_spec h (hpin₁.mono fun _ h => h) hxV dotdot dp).bind fun r k₄ h => ?_
    have hlookup : (((D.newInode x n).adjust dp 1).addEntry x ⟨x, dot⟩).lookup x dotdot = none := by
      have hdd : dot ≠ dotdot := by decide
      rw [Disk.lookup, Disk.addEntry_nil hempty]
      simp [slotOf, List.findIdx_cons, hdd]
    rw [hlookup] at h
    obtain ⟨rfl, h⟩ := h
    exact ensures_pure h
  · exact ensures_pure h

/-- `create` makes an inode in a directory that lacks the name. -/
theorem createNew_spec {name : Name} {type : Nat} {major minor : Int} (htype : type ≠ 0)
    (hpin : Pinned k₀ D) (h : Holding k₀ D {dp} [dp] k) (hdp : (D.inode dp).type ≠ 0)
    (hlookup : D.lookup dp name = none) :
    (createNew dp name type major minor).Ensures (handle p) k fun r k' =>
      ∃ x, r = some x ∧ (D.inode x).type = 0 ∧ 0 < x ∧ x < D.ninodes ∧
        Holding k₀ (D.created dp name x ⟨type, major, minor, 1⟩) {x} [x] k' := by
  refine (ialloc_spec h type).bind ?_
  rintro x k₁ ⟨hfree, hpos, hlt, h⟩
  have h := h htype
  have hne : dp ≠ x := fun heq => hdp (heq ▸ hfree)
  refine (ilock_spec h (Multiset.mem_cons_self x _)).bind fun _ k₂ h => ?_
  refine (load_spec h List.mem_cons_self).bind ?_
  rintro n k₃ ⟨rfl, h⟩
  rw [D.newInode_self]
  refine (assign_spec h List.mem_cons_self (n := ⟨type, major, minor, 1⟩) htype).bind
    fun _ k₄ h => ?_
  have hwrite : (D.newInode x ⟨type, 0, 0, 0⟩).setInode x ⟨type, major, minor, 1⟩ =
      D.newInode x ⟨type, major, minor, 1⟩ := by
    simp only [Disk.newInode, Disk.setInode, Function.update_idem]
  rw [hwrite] at h
  refine (createDots_spec (n := ⟨type, major, minor, 1⟩) hdp hne
    Int.one_pos hpin h List.mem_cons_self (List.mem_cons_of_mem _ List.mem_cons_self)).bind
    fun _ k₅ h => ?_
  have hpin' : Pinned k₀ (D.allocated dp x ⟨type, major, minor, 1⟩) :=
    hpin.mono fun _ h => h.of_allocated Int.one_pos
  refine (dirlink_spec h hpin' (List.mem_cons_of_mem _ List.mem_cons_self) name x).bind
    fun r k₆ h => ?_
  have hlookup' : (D.allocated dp x ⟨type, major, minor, 1⟩).lookup dp name = none := by
    rw [Disk.lookup, D.allocated_entries_ne _ hne]
    exact hlookup
  rw [hlookup'] at h
  obtain ⟨rfl, h⟩ := h
  have hswap : (x ::ₘ {dp} : Multiset Nat) = dp ::ₘ {x} := Multiset.pair_comm x dp
  rw [hswap] at h
  refine (iunlockput_spec h (W := [x]) ?_ (hpin' dp)).bind fun _ k₇ h => ?_
  · intro j hj
    rw [List.mem_singleton.mp hj]
    exact ⟨List.mem_cons_self, Multiset.mem_singleton_self x⟩
  · exact ensures_pure ⟨x, rfl, hfree, hpos, hlt, h⟩

/-- `create` finds an inode, or makes one. -/
theorem create_spec {path : List UInt8} {type : Nat} {major minor : Int} (htype : type ≠ 0)
    (hpin : Pinned k₀ D) (h : Holding k₀ D 0 [] k) :
    (create path type major minor).Ensures (handle p) k fun r k' =>
      (D.creates path (k₀.cwd p) = none ∧
        ∃ V, (∀ x, r = some x → x ∈ V) ∧ Holding k₀ D (taken r 0) V k') ∨
      ∃ x d name, r = some x ∧ D.follow true path (k₀.cwd p) = some (d, name) ∧
        D.lookup d name = none ∧ (D.inode x).type = 0 ∧ 0 < x ∧ x < D.ninodes ∧
        Holding k₀ (D.created d name x ⟨type, major, minor, 1⟩) {x} [x] k' := by
  refine (namex_spec h hpin true path).bind ?_
  rintro r k₁ ⟨rfl, h⟩
  cases hpath : D.follow true path (k₀.cwd p) with
  | none =>
      rw [hpath] at h
      exact ensures_pure (.inl ⟨creates_none hpath, [],
        fun _ hx => (Option.some_ne_none _ hx.symm).elim, h⟩)
  | some found =>
      obtain ⟨dp, name⟩ := found
      rw [hpath] at h
      have hdp : (D.inode dp).type ≠ 0 := by
        rw [Disk.type_of_resolve hpath]
        decide
      refine (ilock_spec h (Multiset.mem_singleton_self dp)).bind fun _ k₂ h => ?_
      refine (dirlookup_spec h List.mem_cons_self name).bind ?_
      rintro r k₃ ⟨-, rfl, h⟩
      cases hlookup : D.lookup dp name with
      | none =>
          rw [hlookup] at h
          refine (createNew_spec htype hpin h hdp hlookup).mono ?_
          rintro r k₄ ⟨x, rfl, hfree, hpos, hlt, h⟩
          exact .inr ⟨x, dp, name, rfl, rfl, hlookup, hfree, hpos, hlt, h⟩
      | some found =>
          obtain ⟨ip, off⟩ := found
          rw [hlookup] at h
          have h : Holding k₀ D (dp ::ₘ ip ::ₘ 0) [dp] k₃ := by
            rw [Multiset.cons_swap]
            exact h
          refine (iunlockput_last h hpin).bind fun _ k₄ h => ?_
          refine (ilock_spec h (Multiset.mem_cons_self ip 0)).bind fun _ k₅ h => ?_
          refine (load_spec h List.mem_cons_self).bind ?_
          rintro n k₆ ⟨rfl, h⟩
          split
          · refine ensures_pure (.inl ⟨creates_found hpath hlookup, [ip], ?_, h⟩)
            rintro x ⟨⟩
            exact List.mem_cons_self
          · refine (iunlockput_last h hpin).bind fun _ k₇ h => ?_
            exact ensures_pure (.inl ⟨creates_found hpath hlookup, [],
              fun _ hx => (Option.some_ne_none _ hx.symm).elim, h⟩)

end Create

/-! ## Files -/

section Open

variable {p : Pid} {k₀ k : Kernel} {D : Disk} {held : Multiset Nat} {V : List Nat} {f ip : Nat}

theorem Holding.setFile (h : Holding k₀ D held V k) {new : File}
    (hnew : new.ref = 0 → new.type = .none) :
    Holding k₀ D held V { k with file := Function.update k.file f new } := by
  refine ⟨h.disk, h.ref, h.agree, h.live, h.read, h.kept, h.cwd, ?_⟩
  intro g hg
  rcases eq_or_ne g f with rfl | hgf
  · simp only [Function.update_self] at hg ⊢
    exact hnew hg
  · simp only [Function.update_of_ne hgf] at hg ⊢
    exact h.files g hg

theorem filealloc_spec (h : Holding k₀ D held V k) :
    filealloc.Ensures (handle p) k fun r k' => Holding k₀ D held V k' ∧
      ∀ f, r = some f → (k'.file f).ref = 1 ∧ (k'.file f).type = .none := by
  apply ensures_call
  intro r k' hk
  change k.filealloc = _ at hk
  unfold Kernel.filealloc at hk
  split at hk
  · cases hk
    exact ⟨h, fun f hf => (Option.some_ne_none f hf.symm).elim⟩
  · next f hf =>
    cases hk
    have hfree : (k.file f).ref = 0 := by
      have := List.find?_some hf
      rwa [decide_eq_true_eq] at this
    refine ⟨h.setFile fun hone => absurd hone Nat.one_ne_zero, ?_⟩
    rintro g ⟨⟩
    simp only [Function.update_self]
    exact ⟨trivial, h.files f hfree⟩

theorem fdalloc_spec (h : Holding k₀ D held V k) :
    (fdalloc f).Ensures (handle p) k fun _ k' => Holding k₀ D held V k' ∧ k'.file = k.file := by
  apply ensures_call
  intro r k' hk
  change k.fdalloc p f = _ at hk
  unfold Kernel.fdalloc at hk
  split at hk
  · cases hk
    exact ⟨h, rfl⟩
  · cases hk
    exact ⟨⟨h.disk, h.ref, h.agree, h.live, h.read, h.kept, h.cwd, h.files⟩, rfl⟩

theorem iunlock_file : (iunlock ip).Ensures (handle p) k fun _ k' => k'.file = k.file := by
  apply ensures_call
  intro r k' hk
  change k.iunlock ip = _ at hk
  unfold Kernel.iunlock at hk
  split at hk
  · cases hk
  · cases hk
    rfl

/-- A file that has not been opened yet refers to no inode. -/
theorem fileclose_spec (h : Holding k₀ D held V k) (href : (k.file f).ref = 1)
    (htype : (k.file f).type = .none) :
    (fileclose f).Ensures (handle p) k fun _ k' => Holding k₀ D held V k' := by
  have hput : (fileput f).Ensures (handle p) k fun r k' =>
      r = some (k.file f) ∧ Holding k₀ D held V k' := by
    apply ensures_call
    intro r k' hk
    change k.fileput f = _ at hk
    unfold Kernel.fileput at hk
    rw [if_neg (by omega), if_neg (by omega)] at hk
    cases hk
    exact ⟨rfl, h.setFile fun _ => rfl⟩
  refine hput.bind ?_
  rintro r k₁ ⟨rfl, h⟩
  simp only [htype, reduceCtorEq, if_false]
  exact ensures_pure h

/-- The end of `sys_open` does not change the disk. -/
theorem openInode_spec (h : Holding k₀ D {ip} V k) (hpin : Pinned k₀ D) (omode : Nat) :
    (openInode ip omode).Ensures (handle p) k fun _ k' => ∃ held, Holding k₀ D held [] k' := by
  refine (filealloc_spec h).bind ?_
  rintro r k₁ ⟨h, hfile⟩
  cases r with
  | none =>
      refine (iunlockput_last h hpin).bind fun _ k₂ h => ?_
      exact ensures_pure ⟨0, h⟩
  | some f =>
      obtain ⟨href, htype⟩ := hfile f rfl
      refine (fdalloc_spec h).bind ?_
      rintro r k₂ ⟨h, hsame⟩
      rw [← hsame] at href htype
      cases r with
      | none =>
          refine (fileclose_spec h href htype).bind fun _ k₃ h => ?_
          refine (iunlockput_last h hpin).bind fun _ k₄ h => ?_
          exact ensures_pure ⟨0, h⟩
      | some fd =>
          have hunlock : (iunlock ip).Ensures (handle p) k₂ fun _ k' =>
              Holding k₀ D {ip} V k' ∧ k'.file = k₂.file :=
            fun r k' hk => ⟨iunlock_spec h r k' hk, iunlock_file r k' hk⟩
          refine hunlock.bind ?_
          rintro r k₃ ⟨h, hsame⟩
          have hset : ∀ readable writable, (setFile f ip readable writable).Ensures (handle p) k₃
              fun _ k' => Holding k₀ D {ip} V k' := by
            intro readable writable
            apply ensures_call
            intro r k' hk
            cases hk
            refine h.setFile fun hzero => ?_
            rw [hsame] at hzero
            exact absurd (href.symm.trans hzero) Nat.one_ne_zero
          refine (hset _ _).bind fun _ k₄ h => ?_
          exact ensures_pure ⟨{ip}, h.mono fun j hj => absurd hj List.not_mem_nil⟩

end Open

/-! ## Removal -/

section Unlink

variable {p : Pid} {k₀ k : Kernel} {D : Disk} {held : Multiset Nat} {V : List Nat} {dp ip off : Nat}

/-- A call that leaves the disk as it was. -/
theorem Inv.of_holding {held : Multiset Nat} (h₀ : Inv k₀) (h : Holding k₀ k₀.disk held V k) :
    Inv k := by
  obtain ⟨hc, t, hwf, hrep⟩ := h₀
  refine ⟨h.cached hc fun i htype hn => .inr ⟨htype, hn⟩, t, hwf, ?_⟩
  rw [h.disk]
  exact hrep

theorem commitTrans_inv (h : Inv k) : commitTrans.Ensures (handle p) k fun _ k' => Inv k' := by
  apply ensures_call
  intro r k' hk
  cases hk
  exact ⟨⟨h.1.agree, h.1.live, h.1.pinned, h.1.files⟩, h.2⟩

theorem unlinkBad_spec (h : Holding k₀ D {dp} V k) (hpin : Pinned k₀ D) :
    (unlinkBad dp).Ensures (handle p) k fun _ k' => Holding k₀ D 0 [] k' := by
  refine (iunlockput_last h hpin).bind fun _ k₁ h => ?_
  refine (commitTrans_spec h).bind fun _ k₂ h => ?_
  exact ensures_pure h

theorem removable_spec (h : Holding k₀ D held V k) :
    (removable ip (D.inode ip)).Ensures (handle p) k fun r k' => Holding k₀ D held V k' ∧
      (r = true → (D.inode ip).type = T_DIR → ∀ e ∈ (D.entries ip).drop 2, e.inum = 0) := by
  unfold removable
  split
  · refine (readi_spec h).bind ?_
    rintro es k₁ ⟨rfl, h⟩
    refine ensures_pure ⟨h, fun hall _ e he => ?_⟩
    simpa using List.all_eq_true.mp hall e he
  · next hfile => exact ensures_pure ⟨h, fun _ htype => absurd htype hfile⟩

/-- The disk with the entry cleared and the link of `..` taken away, before the inode's own
link is. -/
def Disk.cleared (D : Disk) (dp off ip : Nat) : Disk :=
  if (D.inode ip).type = T_DIR then (D.clearEntry dp off).adjust dp (-1) else D.clearEntry dp off

theorem Disk.cleared_adjust (D : Disk) (dp off ip : Nat) :
    (D.cleared dp off ip).adjust ip (-1) = D.unlinked dp off ip := by
  rw [Disk.cleared, Disk.unlinked]

theorem Disk.cleared_type (D : Disk) (dp off ip j : Nat) :
    ((D.cleared dp off ip).inode j).type = (D.inode j).type := by
  unfold Disk.cleared
  split
  · exact Disk.adjust_type ..
  · rfl

theorem Disk.unlinked_inode_dir (D : Disk) (off : Nat) (hne : dp ≠ ip) :
    (D.unlinked dp off ip).inode dp = (D.cleared dp off ip).inode dp := by
  rw [← Disk.cleared_adjust, Disk.adjust, Disk.setInode_ne _ _ hne]

theorem Disk.unlinked_inode_ne (D : Disk) (off : Nat) {j : Nat} (hip : j ≠ ip) (hdp : j ≠ dp) :
    (D.unlinked dp off ip).inode j = D.inode j := by
  rw [← Disk.cleared_adjust, Disk.adjust, Disk.setInode_ne _ _ hip, Disk.cleared]
  split
  · rw [Disk.adjust, Disk.setInode_ne _ _ hdp]
    rfl
  · rfl

theorem removeDotdot_spec (h : Holding k₀ (D.clearEntry dp off) held [ip, dp] k)
    (hdir : (D.inode dp).type ≠ 0) :
    (removeDotdot dp (D.inode ip)).Ensures (handle p) k fun _ k' =>
      Holding k₀ (D.cleared dp off ip) held [ip, dp] k' := by
  unfold removeDotdot Disk.cleared
  split
  · refine (load_spec h (List.mem_cons_of_mem _ List.mem_cons_self)).bind ?_
    rintro n k₂ ⟨rfl, h⟩
    exact assign_spec h (List.mem_cons_of_mem _ List.mem_cons_self) (n := { (D.clearEntry dp
      off).inode dp with nlink := ((D.clearEntry dp off).inode dp).nlink - 1 }) hdir
  · exact ensures_pure h

/-- `sys_unlink` clears the entry and takes the links away. -/
theorem removeEntry_inv (h₀ : Cached k₀) {t : Hierarchy Nat} (hwf : t.Wf)
    (hrep : Represents (k₀.disk.unlinked dp off ip) t 0) (hdp : dp ∈ t.dirs) (hne : dp ≠ ip)
    (hip : (k₀.disk.inode ip).type ≠ 0) (hdir : (k₀.disk.inode dp).type ≠ 0)
    (h : Holding k₀ k₀.disk (ip ::ₘ {dp}) [ip, dp] k) :
    (removeEntry dp off ip (k₀.disk.inode ip)).Ensures (handle p) k fun _ k' => Inv k' := by
  obtain ⟨D, hD⟩ : ∃ D, D = k₀.disk := ⟨_, rfl⟩
  have hpos : 0 < ((D.unlinked dp off ip).inode dp).nlink := by
    rw [hD]
    exact ((hrep.mem_dirs_iff hwf).mp hdp).2
  rw [← hD] at h hrep hip hdir ⊢
  refine (writei_spec h off ⟨0, []⟩).bind fun r k₁ h => ?_
  split
  swap
  · exact ensures_panic
  next hr =>
  refine (removeDotdot_spec (h hr) hdir).bind fun _ k₂ h => ?_
  have hswap : (ip ::ₘ {dp} : Multiset Nat) = dp ::ₘ {ip} := Multiset.pair_comm ip dp
  rw [hswap] at h
  refine (iunlockput_spec h (W := [ip]) ?_ ?_).bind fun _ k₃ h => ?_
  · intro j hj
    rw [List.mem_singleton.mp hj]
    exact ⟨List.mem_cons_self, Multiset.mem_singleton_self ip⟩
  · intro _ hle
    rw [← Disk.unlinked_inode_dir D off hne] at hle
    omega
  refine (load_spec h List.mem_cons_self).bind ?_
  rintro n k₄ ⟨rfl, h⟩
  refine (assign_spec h List.mem_cons_self (n := { (D.cleared dp off ip).inode ip with
    nlink := ((D.cleared dp off ip).inode ip).nlink - 1 })
    (by rwa [D.cleared_type])).bind fun _ k₅ h => ?_
  have h : Holding k₀ ((D.cleared dp off ip).adjust ip (-1)) {ip} [ip] k₅ := h
  rw [Disk.cleared_adjust] at h
  refine (iunlock_spec h).bind fun _ k₆ h => ?_
  have hinv : Inv k₆ := by
    refine ⟨h.cached h₀ ?_, t, hwf, by rwa [h.disk]⟩
    intro j htype hn
    rcases eq_or_ne j ip with rfl | hji
    · exact .inl List.mem_cons_self
    rcases eq_or_ne j dp with rfl | hjd
    · omega
    · rw [D.unlinked_inode_ne off hji hjd] at htype hn
      rw [← hD]
      exact .inr ⟨htype, hn⟩
  refine (iput_inv hinv).bind fun _ k₇ hinv => ?_
  refine (commitTrans_inv hinv).bind fun _ k₈ hinv => ?_
  exact ensures_pure hinv

/-- A directory that has entries besides `.` and `..` is in the tree. -/
theorem Represents.mem_dirs_of_lookup {t : Hierarchy Nat} (h : Represents D t 0)
    {name : Name} (htype : (D.inode dp).type = T_DIR) (hlookup : D.lookup dp name = some (ip, off))
    (hname : ¬(name = dot ∨ name = dotdot)) : dp ∈ t.dirs := by
  obtain ⟨hinum, hslot⟩ := Disk.lookup_eq_some hlookup
  by_contra hdp
  exact hname (h.removed dp htype hdp _ (List.mem_of_getElem? hslot) hinum)

/-- `sys_unlink` keeps the tree. -/
theorem unlink_inv (h₀ : Inv k) (path : List UInt8) :
    (unlink path).Ensures (handle p) k fun _ k' => Inv k' := by
  obtain ⟨hc, t, hwf, hrep⟩ := id h₀
  have hpin := hc.pinned_disk
  have hbad : ∀ {dp : Nat} {V : List Nat} {k' : Kernel}, Holding k k.disk {dp} V k' →
      (unlinkBad dp).Ensures (handle p) k' fun _ k' => Inv k' :=
    fun h => (unlinkBad_spec h hpin).mono fun _ _ h => h₀.of_holding h
  refine (namex_spec hc.holding hpin true path).bind ?_
  rintro r k₁ ⟨rfl, h⟩
  cases hpath : k.disk.follow true path (k.cwd p) with
  | none =>
      rw [hpath] at h
      exact ensures_pure (h₀.of_holding h)
  | some found =>
      obtain ⟨dp, name⟩ := found
      rw [hpath] at h
      have hdir := Disk.type_of_resolve hpath
      refine (beginTrans_spec h).bind fun _ k₂ h => ?_
      refine (ilock_spec h (Multiset.mem_singleton_self dp)).bind fun _ k₃ h => ?_
      split
      · exact hbad h
      next hname =>
      refine (dirlookup_spec h List.mem_cons_self name).bind ?_
      rintro r k₄ ⟨-, rfl, h⟩
      cases hlookup : k.disk.lookup dp name with
      | none =>
          rw [hlookup] at h
          exact hbad h
      | some found =>
          obtain ⟨ip, off⟩ := found
          rw [hlookup] at h
          have h : Holding k k.disk (ip ::ₘ {dp}) [dp] k₄ := h
          obtain ⟨hinum, hslot⟩ := Disk.lookup_eq_some hlookup
          refine (ilock_spec h (Multiset.mem_cons_self ip _)).bind fun _ k₅ h => ?_
          refine (load_spec h List.mem_cons_self).bind ?_
          rintro n k₆ ⟨rfl, h⟩
          split
          · exact ensures_panic
          refine (removable_spec h).bind ?_
          rintro r k₇ ⟨h, hempty⟩
          split
          · next hr =>
            have hdp := hrep.mem_dirs_of_lookup hdir hlookup hname
            rw [not_or] at hname
            obtain ⟨⟨t', hwf', hdp', hrep'⟩, hne⟩ :=
              hrep.unlinked hwf hdp hslot hinum hname.1 hname.2 (hempty hr)
            refine removeEntry_inv hc hwf' hrep' hdp' hne ?_ ?_ h
            · exact h.live ip (h.read ip List.mem_cons_self).1
            · rw [hdir]
              decide
          · refine (iunlockput_last h hpin).bind fun _ k₈ h => ?_
            exact hbad h

end Unlink

/-! ## The current directory -/

theorem setCwd_inv {p : Pid} {k : Kernel} {i : Nat} (h : Inv k) :
    (setCwd i).Ensures (handle p) k fun _ k' => Inv k' := by
  apply ensures_call
  intro r k' hk
  cases hk
  exact ⟨⟨h.1.agree, h.1.live, h.1.pinned, h.1.files⟩, h.2⟩

/-- `sys_chdir` keeps the tree. -/
theorem sysChdir_inv {p : Pid} {k : Kernel} (h₀ : Inv k) (path : Option (List UInt8)) :
    (sysChdir path).Ensures (handle p) k fun _ k' => Inv k' := by
  have hpin := h₀.1.pinned_disk
  cases path with
  | none => exact ensures_pure h₀
  | some path =>
      refine (namei_spec h₀.1.holding hpin path).bind ?_
      rintro r k₁ ⟨rfl, h⟩
      cases hpath : k.disk.follow false path (k.cwd p) with
      | none =>
          rw [hpath] at h
          exact ensures_pure (h₀.of_holding h)
      | some found =>
          rw [hpath] at h
          have h : Holding k k.disk {found.1} [] k₁ := h
          refine (ilock_spec h (Multiset.mem_singleton_self found.1)).bind fun _ k₂ h => ?_
          refine (load_spec h List.mem_cons_self).bind ?_
          rintro n k₃ ⟨rfl, h⟩
          split
          · refine (iunlockput_last h hpin).bind fun _ k₄ h => ?_
            exact ensures_pure (h₀.of_holding h)
          · refine (iunlock_spec h).bind fun _ k₄ h => ?_
            have hcwd : getCwd.Ensures (handle p) k₄ fun _ k' => k' = k₄ := by
              apply ensures_call
              intro r k' hk
              cases hk
              rfl
            refine hcwd.bind ?_
            rintro cwd k₅ rfl
            refine (iput_inv (h₀.of_holding h)).bind fun _ k₆ hinv => ?_
            refine (setCwd_inv hinv).bind fun _ k₇ hinv => ?_
            exact ensures_pure hinv

end Xv6Arm.Sys
