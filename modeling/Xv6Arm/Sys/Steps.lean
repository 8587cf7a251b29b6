import Xv6Arm.Sys.Calls
import Xv6Arm.Sys.Tree

/-!
# The steps of a call that runs alone

A call takes references to inodes and gives them back.  `Holding` describes the kernel in
the middle of a call: the disk, the references that the call holds on top of those at its
start, and the inodes whose copy it has read.  The rules below say what each step does to
it, up to following a path and to adding a name.
-/

namespace Xv6Arm.Sys

open Fs Programs Prog

/-! ## What a disk says -/

theorem slotOf_spec {es : List Entry} {name : Name} {e : Entry}
    (he : es[slotOf es name]? = some e) : e.inum ≠ 0 ∧ e.name = name := by
  obtain ⟨hlt, hval⟩ := List.getElem?_eq_some_iff.mp he
  have hfound : decide (es[slotOf es name].inum ≠ 0 ∧ es[slotOf es name].name = name) = true :=
    List.findIdx_getElem (w := hlt)
  rwa [hval, decide_eq_true_eq] at hfound

namespace Disk

/-- The inode of a name in a directory, and its slot. -/
def lookup (D : Disk) (d : Nat) (name : Name) : Option (Nat × Nat) :=
  match (D.entries d)[slotOf (D.entries d) name]? with
  | none => none
  | some e => some (e.inum, slotOf (D.entries d) name)

/-- Where a path leads. -/
def resolve (D : Disk) (parent : Bool) : List Name → Name → Nat → Option (Nat × Name)
  | [], name, ip => if parent then none else some (ip, name)
  | name :: rest, _, ip =>
      if (D.inode ip).type ≠ T_DIR then none
      else if parent ∧ rest = [] then some (ip, name)
      else
        match D.lookup ip name with
        | none => none
        | some (next, _) => D.resolve parent rest name next

/-- Where a path leads a process with current directory `cwd`. -/
def follow (D : Disk) (parent : Bool) (path : List UInt8) (cwd : Nat) : Option (Nat × Name) :=
  D.resolve parent (elements path) [] (if path.head? = some 47 then ROOTINO else cwd)

theorem resolve_congr {D D' : Disk} (htype : ∀ i, (D'.inode i).type = (D.inode i).type)
    (hentries : D'.entries = D.entries) (parent : Bool) (names : List Name) (name : Name)
    (ip : Nat) : D'.resolve parent names name ip = D.resolve parent names name ip := by
  induction names generalizing name ip with
  | nil => rfl
  | cons x rest ih => simp only [resolve, lookup, htype, hentries, ih]

theorem follow_adjust (D : Disk) (i : Nat) (c : Int) (parent : Bool) (path : List UInt8)
    (cwd : Nat) : (D.adjust i c).follow parent path cwd = D.follow parent path cwd :=
  resolve_congr (adjust_type D i c) rfl ..

/-- The entry that `lookup` finds. -/
theorem lookup_eq_some {D : Disk} {d i off : Nat} {name : Name}
    (h : D.lookup d name = some (i, off)) : i ≠ 0 ∧ (D.entries d)[off]? = some ⟨i, name⟩ := by
  unfold lookup at h
  split at h
  · cases h
  · next e he =>
    cases h
    obtain ⟨hinum, hname⟩ := slotOf_spec he
    exact ⟨hinum, hname ▸ he⟩

/-- A name that `lookup` does not find is not there. -/
theorem lookup_eq_none {D : Disk} {d : Nat} {name : Name} (h : D.lookup d name = none) :
    ∀ e ∈ D.entries d, e.inum ≠ 0 → e.name ≠ name := by
  unfold lookup at h
  split at h
  · next hnone =>
    intro e he hinum hname
    have hlt : slotOf (D.entries d) name < (D.entries d).length :=
      List.findIdx_lt_length_of_exists ⟨e, he, decide_eq_true ⟨hinum, hname⟩⟩
    rw [List.getElem?_eq_none_iff] at hnone
    omega
  · cases h

end Disk

/-! ## The middle of a call -/

/-- The kernel in the middle of a call that started in `k₀`. -/
structure Holding (k₀ : Kernel) (D : Disk) (held : Multiset Nat) (V : List Nat) (k : Kernel) :
    Prop where
  disk : k.disk = D
  ref : ∀ i, k.ref i = k₀.ref i + held.count i
  agree : ∀ i, k.valid i = true → k.core i = D.inode i
  live : ∀ i, k.valid i = true → (D.inode i).type ≠ 0
  /-- The copies of `V` were read, and the call holds them. -/
  read : ∀ i ∈ V, k.valid i = true ∧ i ∈ held
  kept : ∀ i, 0 < k₀.ref i → k₀.valid i = true → k.valid i = true
  cwd : k.cwd = k₀.cwd
  files : ∀ f, (k.file f).ref = 0 → (k.file f).type = .none

/-- The inodes without links are referenced outside of the call. -/
def Pinned (k₀ : Kernel) (D : Disk) : Prop :=
  ∀ i, (D.inode i).type ≠ 0 → (D.inode i).nlink ≤ 0 → 0 < k₀.ref i

section Steps

variable {p : Pid} {k₀ k : Kernel} {D : Disk} {held : Multiset Nat} {V : List Nat} {i : Nat}

theorem beginTrans_spec (h : Holding k₀ D held V k) :
    beginTrans.Ensures (handle p) k fun _ k' => Holding k₀ D held V k' := by
  apply ensures_call
  intro r k' hk
  change k.beginTrans p = _ at hk
  unfold Kernel.beginTrans at hk
  split at hk
  · cases hk
  · cases hk
    exact ⟨h.disk, h.ref, h.agree, h.live, h.read, h.kept, h.cwd, h.files⟩

theorem commitTrans_spec (h : Holding k₀ D held V k) :
    commitTrans.Ensures (handle p) k fun _ k' => Holding k₀ D held V k' := by
  apply ensures_call
  intro r k' hk
  cases hk
  exact ⟨h.disk, h.ref, h.agree, h.live, h.read, h.kept, h.cwd, h.files⟩

theorem count_ref {ref₀ ref : Nat → Nat} (h : ∀ j, ref j = ref₀ j + held.count j) (j : Nat) :
    Function.update ref i (ref i + 1) j = ref₀ j + (i ::ₘ held).count j := by
  rcases eq_or_ne j i with rfl | hj
  · rw [Function.update_self, h, Multiset.count_cons_self, Nat.add_assoc]
  · rw [Function.update_of_ne hj, h, Multiset.count_cons_of_ne hj]

/-- The copies that are in use after one was dropped. -/
theorem valid_of_dropped {valid : Nat → Bool} {j : Nat}
    (h : Function.update valid i false j = true) : j ≠ i ∧ valid j = true := by
  rcases eq_or_ne j i with rfl | hji
  · rw [Function.update_self] at h
    cases h
  · rw [Function.update_of_ne hji] at h
    exact ⟨hji, h⟩

theorem Holding.iget_ok (h : Holding k₀ D held V k) {k' : Kernel} {r : Unit}
    (hk : k.iget i = .ok (r, k')) : Holding k₀ D (i ::ₘ held) V k' := by
  unfold Kernel.iget at hk
  split at hk
  · cases hk
    exact ⟨h.disk, count_ref h.ref, h.agree, h.live,
      fun j hj => ⟨(h.read j hj).1, Multiset.mem_cons_of_mem (h.read j hj).2⟩, h.kept, h.cwd,
      h.files⟩
  · next hzero =>
    split at hk
    · cases hk
    · cases hk
      have hi : k.ref i = 0 := Nat.eq_zero_of_not_pos hzero
      have hsum := h.ref i
      -- nobody holds the inode, so that no copy of it is in use
      refine ⟨h.disk, ?_, fun j hj => h.agree j (valid_of_dropped hj).2,
        fun j hj => h.live j (valid_of_dropped hj).2, ?_, ?_, h.cwd, h.files⟩
      · intro j
        have hcount := count_ref h.ref (i := i) j
        rw [hi] at hcount
        exact hcount
      · intro j hj
        obtain ⟨hvalid, hheld⟩ := h.read j hj
        have hji : j ≠ i := by
          rintro rfl
          have := Multiset.count_pos.mpr hheld
          omega
        exact ⟨(Function.update_of_ne hji ..).trans hvalid, Multiset.mem_cons_of_mem hheld⟩
      · intro j hpos hvalid
        have hji : j ≠ i := by
          rintro rfl
          omega
        exact (Function.update_of_ne hji ..).trans (h.kept j hpos hvalid)

theorem iget_spec (h : Holding k₀ D held V k) :
    (iget i).Ensures (handle p) k fun _ k' => Holding k₀ D (i ::ₘ held) V k' :=
  ensures_call fun _ _ hk => h.iget_ok hk

theorem idup_spec (h : Holding k₀ D held V k) :
    (idup i).Ensures (handle p) k fun _ k' => Holding k₀ D (i ::ₘ held) V k' := by
  apply ensures_call
  intro r k' hk
  cases hk
  exact ⟨h.disk, count_ref h.ref, h.agree, h.live,
    fun j hj => ⟨(h.read j hj).1, Multiset.mem_cons_of_mem (h.read j hj).2⟩, h.kept, h.cwd,
    h.files⟩

/-- A locked inode has been read. -/
theorem ilock_spec (h : Holding k₀ D held V k) (hi : i ∈ held) :
    (ilock i).Ensures (handle p) k fun _ k' => Holding k₀ D held (i :: V) k' := by
  apply ensures_call
  intro r k' hk
  change k.ilock i = _ at hk
  unfold Kernel.ilock at hk
  split at hk
  · cases hk
  split at hk
  · cases hk
  split at hk
  · next hvalid =>
    cases hk
    refine ⟨h.disk, h.ref, h.agree, h.live, ?_, h.kept, h.cwd, h.files⟩
    intro j hj
    rcases List.mem_cons.mp hj with rfl | hj
    · exact ⟨hvalid, hi⟩
    · exact h.read j hj
  split at hk
  · cases hk
  · next htype =>
    cases hk
    rw [h.disk] at htype
    have hmono : ∀ j, k.valid j = true → Function.update k.valid i true j = true := by
      intro j hj
      rcases eq_or_ne j i with rfl | hji
      · exact Function.update_self ..
      · exact (Function.update_of_ne hji ..).trans hj
    refine ⟨h.disk, h.ref, ?_, ?_, ?_, fun j hpos hj => hmono j (h.kept j hpos hj), h.cwd, h.files⟩
    · intro j hj
      rcases eq_or_ne j i with rfl | hji
      · simp only [Function.update_self, h.disk]
      · simp only [Function.update_of_ne hji] at hj ⊢
        exact h.agree j hj
    · intro j hj
      rcases eq_or_ne j i with rfl | hji
      · exact htype
      · simp only [Function.update_of_ne hji] at hj
        exact h.live j hj
    · intro j hj
      rcases List.mem_cons.mp hj with rfl | hj
      · exact ⟨Function.update_self .., hi⟩
      · exact ⟨hmono j (h.read j hj).1, (h.read j hj).2⟩

theorem iunlock_spec (h : Holding k₀ D held V k) :
    (iunlock i).Ensures (handle p) k fun _ k' => Holding k₀ D held V k' := by
  apply ensures_call
  intro r k' hk
  change k.iunlock i = _ at hk
  unfold Kernel.iunlock at hk
  split at hk
  · cases hk
  · cases hk
    exact ⟨h.disk, h.ref, h.agree, h.live, h.read, h.kept, h.cwd, h.files⟩

/-- The inode is not freed if it has links, or references outside of the call. -/
theorem iput_spec (h : Holding k₀ D (i ::ₘ held) V k) {W : List Nat}
    (hV : ∀ j ∈ W, j ∈ V ∧ j ∈ held)
    (hpin : (D.inode i).type ≠ 0 → (D.inode i).nlink ≤ 0 → 0 < k₀.ref i) :
    (iput i).Ensures (handle p) k fun _ k' => Holding k₀ D held W k' := by
  apply ensures_call
  intro r k' hk
  change k.iput i = _ at hk
  have hsum := h.ref i
  rw [Multiset.count_cons_self] at hsum
  have hlast : k.lastPut i = false := by
    rw [Kernel.lastPut, decide_eq_false_iff_not]
    rintro ⟨href, hvalid, hnlink⟩
    rw [h.agree i hvalid] at hnlink
    have := hpin (h.live i hvalid) (le_of_eq hnlink)
    omega
  unfold Kernel.iput at hk
  rw [hlast] at hk
  cases hk
  refine ⟨h.disk, ?_, h.agree, h.live, fun j hj => ⟨(h.read j (hV j hj).1).1, (hV j hj).2⟩, h.kept,
    h.cwd, h.files⟩
  intro j
  rcases eq_or_ne j i with rfl | hji
  · show Function.update k.ref j (k.ref j - 1) j = _
    rw [Function.update_self]
    omega
  · show Function.update k.ref i (k.ref i - 1) j = _
    rw [Function.update_of_ne hji, h.ref j, Multiset.count_cons_of_ne hji]

theorem iunlockput_spec (h : Holding k₀ D (i ::ₘ held) V k) {W : List Nat}
    (hV : ∀ j ∈ W, j ∈ V ∧ j ∈ held)
    (hpin : (D.inode i).type ≠ 0 → (D.inode i).nlink ≤ 0 → 0 < k₀.ref i) :
    (iunlockput i).Ensures (handle p) k fun _ k' => Holding k₀ D held W k' :=
  (iunlock_spec h).bind fun _ _ h => iput_spec h hV hpin

/-- The same at the end of a call, which has no inode locked then. -/
theorem iunlockput_last (h : Holding k₀ D (i ::ₘ held) V k) (hpin : Pinned k₀ D) :
    (iunlockput i).Ensures (handle p) k fun _ k' => Holding k₀ D held [] k' :=
  iunlockput_spec h (fun _ hj => absurd hj List.not_mem_nil) (hpin i)

theorem load_spec (h : Holding k₀ D held V k) (hi : i ∈ V) :
    (load i).Ensures (handle p) k fun n k' => n = D.inode i ∧ Holding k₀ D held V k' := by
  apply ensures_call
  intro r k' hk
  cases hk
  exact ⟨h.agree i (h.read i hi).1, h⟩

theorem assign_spec (h : Holding k₀ D held V k) (hi : i ∈ V) {n : Inode} (hn : n.type ≠ 0) :
    (assign i n).Ensures (handle p) k fun _ k' => Holding k₀ (D.setInode i n) held V k' := by
  have hvalid := (h.read i hi).1
  apply ensures_op
  intro r k₁ hk₁
  cases hk₁
  apply ensures_call
  intro r k₂ hk₂
  cases hk₂
  refine ⟨?_, h.ref, ?_, ?_, h.read, h.kept, h.cwd, h.files⟩
  · simp only [Function.update_self, h.disk]
  · intro j hj
    rcases eq_or_ne j i with rfl | hji
    · simp only [Function.update_self, Disk.setInode_self]
    · simp only [Function.update_of_ne hji, Disk.setInode_ne _ _ hji]
      exact h.agree j hj
  · intro j hj
    rcases eq_or_ne j i with rfl | hji
    · rw [Disk.setInode_self]
      exact hn
    · rw [Disk.setInode_ne _ _ hji]
      exact h.live j hj

theorem readi_spec (h : Holding k₀ D held V k) :
    (readi i).Ensures (handle p) k fun es k' => es = D.entries i ∧ Holding k₀ D held V k' := by
  apply ensures_call
  intro r k' hk
  cases hk
  exact ⟨by rw [h.disk], h⟩

theorem writei_spec (h : Holding k₀ D held V k) (off : Nat) (e : Entry) :
    (writei i off e).Ensures (handle p) k fun r k' => r = true →
      Holding k₀ (D.setEntries i (Kernel.putEntry (D.entries i) off e)) held V k' := by
  apply ensures_call
  intro r k' hk hr
  change k.writei i off e = _ at hk
  unfold Kernel.writei at hk
  split at hk
  · cases hk
    exact ⟨by simp only [h.disk], h.ref, h.agree, h.live, h.read, h.kept, h.cwd, h.files⟩
  · cases hk
    cases hr

/-- A new inode, which was free. -/
theorem ialloc_spec (h : Holding k₀ D held V k) (type : Nat) :
    (ialloc type).Ensures (handle p) k fun i k' =>
      (D.inode i).type = 0 ∧ 0 < i ∧ i < D.ninodes ∧
        (type ≠ 0 → Holding k₀ (D.newInode i ⟨type, 0, 0, 0⟩) (i ::ₘ held) V k') := by
  apply ensures_call
  intro i k' hk
  change k.ialloc type = _ at hk
  unfold Kernel.ialloc at hk
  split at hk
  · cases hk
  · next x hx =>
    have hfree : (D.inode x).type = 0 := by
      have := List.find?_some hx
      rw [decide_eq_true_eq, h.disk] at this
      exact this
    have hrange := List.mem_of_find?_eq_some hx
    rw [List.mem_range'_1, h.disk] at hrange
    have hinvalid : ∀ j, k.valid j = true → j ≠ x := fun j hj heq => h.live j hj (heq ▸ hfree)
    split at hk
    · next k₁ hget =>
      cases hk
      refine ⟨hfree, by omega, by omega, fun htype => ?_⟩
      have hnew : Holding k₀ (D.newInode i ⟨type, 0, 0, 0⟩) held V
          { k with disk := (k.disk.setEntries i []).setInode i ⟨type, 0, 0, 0⟩ } := by
        have hold : ∀ j, k.valid j = true → (D.newInode i ⟨type, 0, 0, 0⟩).inode j = D.inode j :=
          fun j hj => Disk.setInode_ne _ _ (hinvalid j hj)
        refine ⟨by rw [h.disk]; rfl, h.ref, ?_, ?_, h.read, h.kept, h.cwd, h.files⟩
        · intro j hj
          exact (h.agree j hj).trans (hold j hj).symm
        · intro j hj
          rw [hold j hj]
          exact h.live j hj
      exact hnew.iget_ok hget
    · cases hk
    · cases hk

end Steps

/-! ## Directories and paths -/

/-- The references of a call after a step that may have found an inode. -/
def taken : Option Nat → Multiset Nat → Multiset Nat
  | none, held => held
  | some i, held => i ::ₘ held

section Paths

variable {p : Pid} {k₀ k : Kernel} {D : Disk} {held : Multiset Nat} {V : List Nat} {dp : Nat}

theorem Holding.mono (h : Holding k₀ D held V k) {V' : List Nat} (hV : ∀ j ∈ V', j ∈ V) :
    Holding k₀ D held V' k :=
  ⟨h.disk, h.ref, h.agree, h.live, fun j hj => h.read j (hV j hj), h.kept, h.cwd, h.files⟩

theorem dirlookup_spec (h : Holding k₀ D held V k) (hdp : dp ∈ V) (name : Name) :
    (dirlookup dp name).Ensures (handle p) k fun r k' =>
      (D.inode dp).type = T_DIR ∧ r = D.lookup dp name ∧
        Holding k₀ D (taken (r.map Prod.fst) held) V k' := by
  refine (load_spec h hdp).bind ?_
  rintro n k₁ ⟨rfl, h⟩
  split
  · exact ensures_panic
  · next htype =>
    have htype : (D.inode dp).type = T_DIR := not_not.mp htype
    refine (readi_spec h).bind ?_
    rintro es k₂ ⟨rfl, h⟩
    cases hslot : (D.entries dp)[slotOf (D.entries dp) name]? with
    | none =>
        have hlookup : D.lookup dp name = none := by rw [Disk.lookup, hslot]
        exact ensures_pure ⟨htype, hlookup.symm, h⟩
    | some e =>
        have hlookup : D.lookup dp name = some (e.inum, slotOf (D.entries dp) name) := by
          rw [Disk.lookup, hslot]
        refine (iget_spec h).bind fun _ k₃ h => ?_
        exact ensures_pure ⟨htype, hlookup.symm, h⟩

/-- `dirlink` adds a name that is not there. -/
theorem dirlink_spec (h : Holding k₀ D held V k) (hpin : Pinned k₀ D) (hdp : dp ∈ V) (name : Name)
    (inum : Nat) :
    (dirlink dp name inum).Ensures (handle p) k fun r k' =>
      match D.lookup dp name with
      | none => r = true ∧ Holding k₀ (D.addEntry dp ⟨inum, name⟩) held V k'
      | some _ => r = false ∧ Holding k₀ D held V k' := by
  refine (dirlookup_spec h hdp name).bind ?_
  rintro r k₁ ⟨-, rfl, h⟩
  cases hlookup : D.lookup dp name with
  | none =>
      rw [hlookup] at h
      refine (readi_spec h).bind ?_
      rintro es k₂ ⟨rfl, h⟩
      refine (writei_spec h _ _).bind ?_
      intro r k₃ h
      split
      · next hr => exact ensures_pure ⟨rfl, h hr⟩
      · exact ensures_panic
  | some found =>
      obtain ⟨i, off⟩ := found
      rw [hlookup] at h
      have hV : ∀ j ∈ V, j ∈ V ∧ j ∈ held := fun j hj => ⟨hj, (‹Holding k₀ D held V k›.read j hj).2⟩
      refine (iput_spec h hV (hpin i)).bind fun _ k₂ h => ?_
      exact ensures_pure ⟨rfl, h⟩

/-- The loop of `namex` follows the path, and holds the inode it returns. -/
theorem namexLoop_spec (hpin : Pinned k₀ D) (parent : Bool) (names : List Name) :
    ∀ {name : Name} {ip : Nat} {k : Kernel}, Holding k₀ D (ip ::ₘ held) V k →
      (∀ j ∈ V, j ∈ held) →
      (namexLoop parent names name ip).Ensures (handle p) k fun r k' =>
        r = D.resolve parent names name ip ∧ Holding k₀ D (taken (r.map Prod.fst) held) V k' := by
  induction names with
  | nil =>
      intro name ip k h hV
      unfold namexLoop Disk.resolve
      split
      · refine (iput_spec h (fun j hj => ⟨hj, hV j hj⟩) (hpin ip)).bind fun _ k₁ h => ?_
        exact ensures_pure ⟨rfl, h⟩
      · exact ensures_pure ⟨rfl, h⟩
  | cons x rest ih =>
      intro name ip k h hV
      have hVin : ∀ j ∈ V, j ∈ ip :: V ∧ j ∈ held := fun j hj => ⟨List.mem_cons_of_mem _ hj, hV j hj⟩
      unfold namexLoop Disk.resolve
      refine (ilock_spec h (Multiset.mem_cons_self ip held)).bind fun _ k₁ h => ?_
      refine (load_spec h List.mem_cons_self).bind ?_
      rintro n k₂ ⟨rfl, h⟩
      split
      · refine (iunlockput_spec h hVin (hpin ip)).bind fun _ k₃ h => ?_
        exact ensures_pure ⟨rfl, h⟩
      split
      · refine (iunlock_spec h).bind fun _ k₃ h => ?_
        exact ensures_pure ⟨rfl, h.mono fun j hj => List.mem_cons_of_mem _ hj⟩
      · refine (dirlookup_spec h List.mem_cons_self x).bind ?_
        rintro r k₃ ⟨-, rfl, h⟩
        cases hlookup : D.lookup ip x with
        | none =>
            rw [hlookup] at h
            refine (iunlockput_spec h hVin (hpin ip)).bind fun _ k₄ h => ?_
            exact ensures_pure ⟨rfl, h⟩
        | some found =>
            obtain ⟨next, off⟩ := found
            rw [hlookup] at h
            have h : Holding k₀ D (ip ::ₘ next ::ₘ held) (ip :: V) k₃ := by
              rw [Multiset.cons_swap]
              exact h
            refine (iunlockput_spec h (fun j hj => ⟨(hVin j hj).1,
              Multiset.mem_cons_of_mem (hV j hj)⟩) (hpin ip)).bind fun _ k₄ h => ?_
            exact ih h hV

theorem namex_spec (h : Holding k₀ D held V k) (hpin : Pinned k₀ D) (parent : Bool)
    (path : List UInt8) :
    (namex parent path).Ensures (handle p) k fun r k' =>
      r = D.follow parent path (k₀.cwd p) ∧ Holding k₀ D (taken (r.map Prod.fst) held) V k' := by
  have hV : ∀ j ∈ V, j ∈ held := fun j hj => (h.read j hj).2
  unfold namex Disk.follow
  split
  · refine (iget_spec h).bind fun _ k₁ h => ?_
    exact namexLoop_spec hpin parent _ h hV
  · have hcwd : getCwd.Ensures (handle p) k fun i k' => i = k₀.cwd p ∧ Holding k₀ D held V k' := by
      apply ensures_call
      intro i k' hk
      cases hk
      exact ⟨by rw [h.cwd], h⟩
    refine hcwd.bind ?_
    rintro i k₁ ⟨rfl, h⟩
    refine (idup_spec h).bind fun _ k₂ h => ?_
    exact namexLoop_spec hpin parent _ h hV

theorem namei_spec (h : Holding k₀ D held V k) (hpin : Pinned k₀ D) (path : List UInt8) :
    (namei path).Ensures (handle p) k fun r k' =>
      r = (D.follow false path (k₀.cwd p)).map Prod.fst ∧ Holding k₀ D (taken r held) V k' := by
  refine (namex_spec h hpin false path).bind ?_
  rintro r k₁ ⟨rfl, h⟩
  exact ensures_pure ⟨rfl, h⟩

/-- The parent of a path is a directory. -/
theorem Disk.type_of_resolve {names : List Name} {name x : Name} {ip d : Nat}
    (h : D.resolve true names name ip = some (d, x)) : (D.inode d).type = T_DIR := by
  induction names generalizing name ip with
  | nil => simp [Disk.resolve] at h
  | cons y rest ih =>
      unfold Disk.resolve at h
      split at h
      · cases h
      · next htype =>
        split at h
        · cases h
          exact not_not.mp htype
        · split at h
          · cases h
          · exact ih h

end Paths

end Xv6Arm.Sys
